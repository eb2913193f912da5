import Mathlib.Tactic
import Unroller.Proofs.Loop.Laps

/-!
# Where control goes among the laps

When the turn of a loop has been copied, control goes through the laps one after another.  How the
blocks of the changed graph lead to one another is said once, in terms of the graph before the
change; reachability, and what can be reached without passing through a header, follow.

* `Course`: a graph with laps in the place of a loop, the first of them on the blocks of the loop.
* `Course.Step`: where a block of the loop, or one outside it, leads; `step_of_edge`,
  `edge_of_step`: these are the edges.
* `reaches_iff`: control reaches what it reached outside the loop, and all laps.
* `step_to_header`: what leads to the header of a lap.
* `avoids_outside`, `avoids_laps`: walks that do not pass through the header of a lap.
-/

namespace Unroller

open Unroller.Graph Machine Relation

variable {g k k' : Graph} {loop : NaturalLoop} {shape : LoopShape} {b c d t x y : BlockId}
  {n i j m : Nat} {lap : Nat → BlockId → BlockId}

/-- A block that control reaches outside a loop. -/
def Graph.Outside (g : Graph) (loop : NaturalLoop) (b : BlockId) : Prop :=
  g.flow.Reaches entry b ∧ b ∉ loop.blocks

/-- The graph `k` is `g` with `n` laps in the place of a loop. -/
structure Course (g : Graph) (loop : NaturalLoop) (shape : LoopShape) (n : Nat)
    (lap : Nat → BlockId → BlockId) (k : Graph) : Prop where
  wellFormed : k.WellFormed
  pos : 0 < n
  first : ∀ b, lap 0 b = b
  each : ∀ i < n, Lap g loop shape (lap i) (shape.entrance n lap (i + 1)) k
  outside : ∀ b, g.Outside loop b → SameCode g k b
  apart : ∀ i < n, ∀ j < n, ∀ b ∈ g.turn loop, ∀ c ∈ g.turn loop, lap i b = lap j c → i = j ∧ b = c
  away : ∀ i < n, ∀ b ∈ g.turn loop, ¬ g.Outside loop (lap i b)

/-- A block of one of the laps. -/
def OnCourse (g : Graph) (loop : NaturalLoop) (n : Nat) (lap : Nat → BlockId → BlockId)
    (b : BlockId) : Prop :=
  ∃ i < n, ∃ c ∈ g.turn loop, b = lap i c

/-- Where the blocks outside the loop and those of the laps lead. -/
inductive Course.Step (g : Graph) (loop : NaturalLoop) (shape : LoopShape) (n : Nat)
    (lap : Nat → BlockId → BlockId) : BlockId → BlockId → Prop where
  | outside {b t : BlockId} (hb : g.Outside loop b) (ht : t ∈ g.successors b) :
      Step g loop shape n lap b t
  | within {i : Nat} {b t : BlockId} (hi : i < n) (hb : b ∈ g.turn loop) (hne : b ≠ shape.tail)
      (ht : t ∈ g.successors b) : Step g loop shape n lap (lap i b) (lap i t)
  | onward {i : Nat} (hi : i < n) :
      Step g loop shape n lap (lap i shape.tail) (shape.entrance n lap (i + 1))
  | leave {i : Nat} (hi : i < n) (hpart : shape.isFull = false) :
      Step g loop shape n lap (lap i shape.tail) shape.next

/-! ## Before the change -/

namespace Graph.Unrollable

variable (hu : g.Unrollable loop shape)

include hu

theorem wellFormed : g.WellFormed := hu.region.wellFormed

theorem outside_entry : g.Outside loop entry :=
  ⟨.refl hu.parts.natural.header_reaches.left_lt, entry_notMem hu.parts⟩

theorem outside_next : g.Outside loop shape.next :=
  ⟨(hu.parts.natural.reaches hu.parts.tail_mem).step
    (hu.wellFormed.edge_iff.2 (mem_successors_of_successor? hu.parts.exit)), hu.parts.next_notMem⟩

/-- From outside control goes on outside or to the header. -/
theorem outside_or_header (hb : g.Outside loop b) (ht : t ∈ g.successors b) :
    g.Outside loop t ∨ t = loop.header := by
  have hedge := hu.wellFormed.edge_iff.2 ht
  by_cases hin : t ∈ loop.blocks
  · exact .inr (hu.parts.natural.edge_into hb.1 hedge hb.2 hin)
  · exact .inl ⟨hb.1.step hedge, hin⟩

/-- Out of the loop control goes from the tail only. -/
theorem leaving (hb : b ∈ loop.blocks) (ht : t ∈ g.successors b) (hout : t ∉ loop.blocks) :
    b = shape.tail ∧ t = shape.next := by
  have htail : b = shape.tail := by
    by_contra hne
    exact hout (hu.parts.closed b hb hne t ht)
  subst htail
  obtain ⟨slot, hslot⟩ := mem_successors_iff_successor?.1 ht
  obtain ⟨stay, hstayMem, hstay⟩ := hu.parts.stay
  rcases hu.parts.tail_slot hu.wellFormed hslot with rfl | rfl
  · exact absurd (Option.some.inj (hstay.symm.trans hslot) ▸ hstayMem) hout
  · exact ⟨rfl, (Option.some.inj (hu.parts.exit.symm.trans hslot)).symm⟩

/-- Control comes to the header from outside. -/
theorem exists_outside : ∃ p, g.Outside loop p ∧ loop.header ∈ g.successors p := by
  obtain ⟨p, hreach, hedge, hout⟩ := hu.parts.exists_outside
  exact ⟨p, ⟨hreach, hout⟩, hu.wellFormed.edge_iff.1 hedge⟩

end Graph.Unrollable

namespace Course

variable (hu : g.Unrollable loop shape) (hc : Course g loop shape n lap k)

include hu hc

/-! ## Steps -/

omit hc in
/-- A lap begins at its header. -/
theorem entrance_of_lt (hi : i < n) : shape.entrance n lap i = lap i loop.header := by
  simp [LoopShape.entrance, hi, hu.header]

theorem entrance_cases : (i < n ∧ shape.entrance n lap i = lap i loop.header) ∨
    (n ≤ i ∧ shape.isFull = true ∧ shape.entrance n lap i = shape.next) ∨
    (n ≤ i ∧ shape.isFull = false ∧ shape.entrance n lap i = lap 0 loop.header) := by
  by_cases hi : i < n
  · exact .inl ⟨hi, entrance_of_lt hu hi⟩
  · cases hfull : shape.isFull <;>
      simp [LoopShape.entrance, hi, hfull, hc.first, hu.header, Nat.le_of_not_lt hi]

omit hu in
theorem isLive_outside (hb : g.Outside loop b) : k.isLive b = true := (hc.outside b hb).isLive

/-- Control stays outside and on the laps. -/
theorem Step.place (h : Step g loop shape n lap x y) :
    g.Outside loop y ∨ OnCourse g loop n lap y := by
  cases h with
  | outside hb ht =>
    refine (hu.outside_or_header hb ht).imp_right fun heq => ?_
    exact ⟨0, hc.pos, loop.header, hu.turn.header_mem, by rw [heq, hc.first]⟩
  | @within i b t hi hb hne ht =>
    exact .inr ⟨i, hi, t, (hu.turn.closed b hb hne t ht).1, rfl⟩
  | @onward i hi =>
    rcases entrance_cases hu hc (i := i + 1) with ⟨hlt, heq⟩ | ⟨_, _, heq⟩ | ⟨_, _, heq⟩
    · exact .inr ⟨i + 1, hlt, loop.header, hu.turn.header_mem, heq⟩
    · exact .inl (heq ▸ hu.outside_next)
    · exact .inr ⟨0, hc.pos, loop.header, hu.turn.header_mem, heq⟩
  | leave _ _ => exact .inl hu.outside_next

omit hu in
theorem edge_of_step (h : Step g loop shape n lap x y) : k.flow.Edge x y := by
  refine hc.wellFormed.edge_iff.2 (mem_successors_iff_successor?.2 ?_)
  cases h with
  | outside hb ht =>
    obtain ⟨slot, hslot⟩ := mem_successors_iff_successor?.1 ht
    exact ⟨slot, by rw [(hc.outside _ hb).successor, hslot]⟩
  | @within i b t hi hb hne ht =>
    obtain ⟨slot, hslot⟩ := mem_successors_iff_successor?.1 ht
    exact ⟨slot, by rw [(hc.each i hi).successor b hb hne, hslot]; rfl⟩
  | @onward i hi =>
    cases hfull : shape.isFull with
    | true => exact ⟨0, by rw [(hc.each i hi).tail.full hfull, if_pos rfl]⟩
    | false => exact ⟨shape.inLoopSlot, (hc.each i hi).tail.stay hfull⟩
  | @leave i hi hpart => exact ⟨shape.exitSlot, (hc.each i hi).tail.exit hpart⟩

omit hu in
/-- A slot of the tail of a lap. -/
theorem tail_cases {slot : Nat} (hi : i < n) (ht : k.successor? (lap i shape.tail) slot = some t) :
    (t = shape.entrance n lap (i + 1)) ∨
      (shape.isFull = false ∧ slot = shape.exitSlot ∧ t = shape.next) := by
  have htail := (hc.each i hi).tail
  cases hfull : shape.isFull with
  | true =>
    rw [htail.full hfull] at ht
    split at ht
    · exact .inl (Option.some.inj ht).symm
    · cases ht
  | false =>
    rcases htail.slot hfull slot t ht with rfl | rfl
    · exact .inl (Option.some.inj ((htail.stay hfull).symm.trans ht)).symm
    · exact .inr ⟨rfl, rfl, (Option.some.inj ((htail.exit hfull).symm.trans ht)).symm⟩

omit hu in
theorem step_of_edge (hx : g.Outside loop x ∨ OnCourse g loop n lap x) (h : k.flow.Edge x y) :
    Step g loop shape n lap x y := by
  obtain ⟨slot, hslot⟩ := mem_successors_iff_successor?.1 (hc.wellFormed.edge_iff.1 h)
  rcases hx with hx | ⟨i, hi, b, hb, rfl⟩
  · rw [(hc.outside x hx).successor] at hslot
    exact .outside hx (mem_successors_of_successor? hslot)
  · by_cases hne : b = shape.tail
    · subst hne
      rcases tail_cases hc hi hslot with rfl | ⟨hpart, _, rfl⟩
      · exact .onward hi
      · exact .leave hi hpart
    · rw [(hc.each i hi).successor b hb hne] at hslot
      obtain ⟨t, ht, rfl⟩ := Option.map_eq_some_iff.1 hslot
      exact .within hi hb hne (mem_successors_of_successor? ht)

/-! ## Reachability -/

theorem place_of_reaches (h : k.flow.Reaches entry x) :
    g.Outside loop x ∨ OnCourse g loop n lap x :=
  h.induction (P := fun v => g.Outside loop v ∨ OnCourse g loop n lap v) (.inl hu.outside_entry)
    fun _ _ _ hedge hv => (step_of_edge hc hv hedge).place hu hc

/-- A walk that has not come to the header is still there, and avoids all blocks of the laps. -/
theorem avoids_of_walk (hd : ¬ g.Outside loop d) {vs : List Nat} (hwalk : g.flow.Walk x y vs)
    (hvs : loop.header ∉ vs) (hx : g.flow.Avoids loop.header entry x) : k.flow.Avoids d x y := by
  have hplace : ∀ {v}, g.flow.Avoids loop.header entry v → g.Outside loop v :=
    fun hv => ⟨hv.reaches, hu.parts.notMem_of_avoids hv⟩
  have hne : ∀ {v}, g.flow.Avoids loop.header entry v → v ≠ d := by
    rintro v hv rfl
    exact hd (hplace hv)
  induction hwalk with
  | single _ =>
    obtain ⟨block, hblock⟩ := isLive_iff.1 (isLive_outside hc (hplace hx))
    exact .refl (lt_size_of_block? hblock) (hne hx)
  | @cons v w y ws hedge hwalk ih =>
    have hvne : v ≠ loop.header := fun heq => hvs (heq ▸ List.mem_cons_self ..)
    have hws : loop.header ∉ ws := fun hmem => hvs (List.mem_cons_of_mem _ hmem)
    have hw := hx.trans (hedge.avoids hvne fun heq => hws (heq ▸ hwalk.left_mem))
    have hstep : Step g loop shape n lap v w :=
      .outside (hplace hx) (hu.wellFormed.edge_iff.1 hedge)
    exact ((edge_of_step hc hstep).avoids (hne hx) (hne hw)).trans (ih hws hw)

/-- What control reaches before it comes to the header it still reaches so. -/
theorem avoids_outside (hd : ¬ g.Outside loop d) (hav : g.flow.Avoids loop.header entry b) :
    k.flow.Avoids d entry b := by
  obtain ⟨vs, hwalk, hvs⟩ := hav
  exact avoids_of_walk hu hc hd hwalk hvs
    (.refl hwalk.left_lt fun heq => hvs (heq ▸ hwalk.left_mem))

/-- The blocks from which control comes to the header of the loop from outside. -/
theorem avoids_of_outside (hd : ¬ g.Outside loop d) (hb : g.Outside loop b)
    (hedge : loop.header ∈ g.successors b) : k.flow.Avoids d entry b :=
  avoids_outside hu hc hd (hu.parts.avoids_of_edge hb.1 hb.2 hedge hu.wellFormed)

theorem avoids_first (hj : j < n) (hne : j ≠ 0) :
    k.flow.Avoids (lap j loop.header) entry (lap 0 loop.header) := by
  have hheader := hu.turn.header_mem
  obtain ⟨p, hp, hedge⟩ := hu.exists_outside
  have hav := avoids_of_outside hu hc (hc.away j hj _ hheader) hp hedge
  have hstep : Step g loop shape n lap p (lap 0 loop.header) := by
    rw [hc.first]
    exact .outside hp hedge
  refine hav.trans ((edge_of_step hc hstep).avoids hav.ne_right fun heq => hne ?_)
  exact (hc.apart 0 hc.pos j hj _ hheader _ hheader heq).1.symm

/-- Within a lap control comes to the header at the beginning only. -/
theorem avoids_within (hi : i < n) (hj : j < n)
    (hway : ReflTransGen (g.TurnStep loop shape.tail) b c) (hb : b ∈ g.turn loop)
    (hne : lap i b ≠ lap j loop.header) :
    k.flow.Avoids (lap j loop.header) (lap i b) (lap i c) := by
  induction hway with
  | refl =>
    obtain ⟨block, hblock⟩ := isLive_iff.1 ((hc.each i hi).live b hb)
    exact .refl (lt_size_of_block? hblock) hne
  | @tail v w _ hstep ih =>
    obtain ⟨hv, hvne, hedge⟩ := hstep
    obtain ⟨hw, hwne⟩ := hu.turn.closed v hv hvne w hedge
    refine ih.trans ((edge_of_step hc (.within hi hv hvne hedge)).avoids ih.ne_right fun heq => ?_)
    exact hwne (hc.apart i hi j hj w hw _ hu.turn.header_mem heq).2

/-- From a lap on control goes through the laps that follow. -/
theorem avoids_laps (hij : i ≤ m) (hm : m < n) (hj : j < n) (hskip : ∀ l, i < l → l ≤ m → l ≠ j)
    (hb : b ∈ g.turn loop) (hne : lap i b ≠ lap j loop.header) :
    k.flow.Avoids (lap j loop.header) (lap i b) (lap m shape.tail) := by
  have hheader := hu.turn.header_mem
  induction m, hij using Nat.le_induction with
  | base => exact avoids_within hu hc hm hj (hu.turn.ends b hb) hb hne
  | succ m hle ih =>
    have hav := ih (by omega) fun l hl hlm => hskip l hl (by omega)
    have hnext : lap (m + 1) loop.header ≠ lap j loop.header := fun heq =>
      hskip (m + 1) (by omega) (Nat.le_refl _) (hc.apart _ hm j hj _ hheader _ hheader heq).1
    have hedge := edge_of_step hc (.onward (i := m) (by omega))
    rw [entrance_of_lt hu hm] at hedge
    exact (hav.trans (hedge.avoids hav.ne_right hnext)).trans
      (avoids_within hu hc hm hj (hu.turn.ends _ hheader) hheader hnext)

/-- **The header of a lap** is reached from outside, from the lap before it, or in a loop from the
last lap. -/
theorem step_to_header (hj : j < n) (h : Step g loop shape n lap x (lap j loop.header)) :
    (j = 0 ∧ g.Outside loop x ∧ loop.header ∈ g.successors x) ∨
      (∃ i, j = i + 1 ∧ x = lap i shape.tail) ∨
      (j = 0 ∧ shape.isFull = false ∧ x = lap (n - 1) shape.tail) := by
  have hheader := hu.turn.header_mem
  have hto : ∀ {l}, l < n → lap l loop.header = lap j loop.header → l = j := fun hl heq =>
    (hc.apart _ hl j hj _ hheader _ hheader heq).1
  generalize hy : lap j loop.header = y at h
  cases h with
  | outside hb ht =>
    rcases hu.outside_or_header hb ht with hout | heq
    · exact absurd (hy ▸ hout) (hc.away j hj _ hheader)
    · obtain rfl := hto hc.pos ((hc.first _).trans (heq.symm.trans hy.symm))
      exact .inl ⟨rfl, hb, heq ▸ ht⟩
  | @within i b t hi hb hne ht =>
    obtain ⟨hmem, htne⟩ := hu.turn.closed b hb hne t ht
    exact absurd (hc.apart j hj i hi _ hheader t hmem hy).2.symm htne
  | @onward i hi =>
    rcases entrance_cases hu hc (i := i + 1) with ⟨hlt, heq⟩ | ⟨_, _, heq⟩ | ⟨hle, hpart, heq⟩
    · exact .inr (.inl ⟨i, (hto hlt (heq.symm.trans hy.symm)).symm, rfl⟩)
    · exact absurd (hy.trans heq ▸ hu.outside_next) (hc.away j hj _ hheader)
    · obtain rfl := hto hc.pos (heq.symm.trans hy.symm)
      obtain rfl : i = n - 1 := by omega
      exact .inr (.inr ⟨rfl, hpart, rfl⟩)
  | leave _ _ => exact absurd (hy ▸ hu.outside_next) (hc.away j hj _ hheader)

/-! ## What is reached -/

theorem reaches_within (hi : i < n) (hh : k.flow.Reaches entry (lap i loop.header))
    (hb : b ∈ g.turn loop) : k.flow.Reaches entry (lap i b) := by
  have hway := hu.turn.reached b hb
  induction hway with
  | refl => exact hh
  | tail _ hstep ih =>
    obtain ⟨hv, hvne, hedge⟩ := hstep
    exact (ih hv).step (edge_of_step hc (.within hi hv hvne hedge))

/-- Control reaches every lap. -/
theorem reaches_lap (hi : i < n) (hb : b ∈ g.turn loop) : k.flow.Reaches entry (lap i b) := by
  have hheader := hu.turn.header_mem
  induction i generalizing b with
  | zero =>
    obtain ⟨p, hp, hedge⟩ := hu.exists_outside
    have hav := avoids_of_outside hu hc (hc.away 0 hi _ hheader) hp hedge
    refine reaches_within hu hc hi (hav.reaches.step ?_) hb
    rw [hc.first]
    exact edge_of_step hc (.outside hp hedge)
  | succ i ih =>
    have hedge := edge_of_step hc (.onward (i := i) (by omega))
    rw [entrance_of_lt hu hi] at hedge
    exact reaches_within hu hc hi ((ih (by omega) hu.turn.tail_mem).step hedge) hb

theorem reaches_next : k.flow.Reaches entry shape.next := by
  have hlast : n - 1 < n := Nat.sub_one_lt hc.pos.ne'
  refine (reaches_lap hu hc hlast hu.turn.tail_mem).step (edge_of_step hc ?_)
  cases hfull : shape.isFull with
  | true =>
    have hstep : Step g loop shape n lap (lap (n - 1) shape.tail)
        (shape.entrance n lap (n - 1 + 1)) := .onward hlast
    simpa [LoopShape.entrance, Nat.sub_add_cancel hc.pos, hfull] using hstep
  | false => exact .leave hlast hfull

theorem reaches_outside (hb : g.Outside loop b) : k.flow.Reaches entry b := by
  refine hb.1.induction (P := fun v => v ∉ loop.blocks → k.flow.Reaches entry v) ?_ ?_ hb.2
  · intro _
    obtain ⟨block, hblock⟩ := isLive_iff.1 (isLive_outside hc hu.outside_entry)
    exact .refl (lt_size_of_block? hblock)
  · intro x y hx hxy ih hy
    have hedge := hu.wellFormed.edge_iff.1 hxy
    by_cases hin : x ∈ loop.blocks
    · rw [(hu.leaving hin hedge hy).2]
      exact reaches_next hu hc
    · exact (ih hin).step (edge_of_step hc (.outside ⟨hx, hin⟩ hedge))

/-- **What control reaches**: the blocks outside the loop that it reached before, and all laps. -/
theorem reaches_iff : k.flow.Reaches entry x ↔ g.Outside loop x ∨ OnCourse g loop n lap x := by
  refine ⟨place_of_reaches hu hc, ?_⟩
  rintro (hx | ⟨i, hi, b, hb, rfl⟩)
  · exact reaches_outside hu hc hx
  · exact reaches_lap hu hc hi hb

/-- The laps stay when the code of what is reached stays. -/
theorem of_sameCode (hk : k'.WellFormed)
    (hs : ∀ b, k.flow.Reaches entry b → SameCode k k' b) : Course g loop shape n lap k' where
  wellFormed := hk
  pos := hc.pos
  first := hc.first
  each := fun i hi => (hc.each i hi).mono hc.wellFormed hu.turn fun _ hb =>
    hs _ (reaches_lap hu hc hi hb)
  outside := fun b hb => (hc.outside b hb).trans (hs b (reaches_outside hu hc hb))
  apart := hc.apart
  away := hc.away

end Course

end Unroller
