import Mathlib.Tactic
import Unroller.Proofs.Loop.TripCount
import Unroller.Proofs.Loop.Unrolling

/-!
# Unrolling preserves what a graph returns

An unrolled graph is run side by side with the graph it was made from.  Outside the loop the two
runs stand at the same block; inside, the second stands at a copy of the block where the first one
stands.

* `LoopParts.padPath`: where the tail stays in the loop, it leads to the header over pads.
* `Body`: a block in a copy of the body that so many others follow.
* `returns_iff_part`: in partial unrolling, any copy stands for the block it is a copy of.
* `returns_iff_full`: in full unrolling, a copy that `r` others follow does so while `r + 1` trips
  are left.
* `entryApart_of_unrolled`: nothing leads to the entry that did not lead to it before.
-/

namespace Unroller

open Unroller.Graph Machine

variable {g h : Graph} {loop : NaturalLoop} {shape : LoopShape} {preHeader first b c t : BlockId}
  {store next final : Store} {v : Value} {slot n r : Nat}

/-! ## Back to the header -/

/-- The only slot of a pad. -/
theorem successor?_pad (hs : g.Sound) {block : Block} (hb : g.block? b = some block)
    (hpad : block.flags.edgePad = true) (ht : t ∈ g.successors b) :
    g.successor? b 0 = some t := by
  obtain ⟨i, hi⟩ := mem_successors_iff_successor?.1 ht
  obtain ⟨m, node, hnodes, hnode, hkind⟩ := hs.pad b block hb hpad
  have hterm : g.terminalNode? b = some (m, node) :=
    terminalNode?_eq_some_iff.2 ⟨block, hb, by simp [hnodes], hnode, by rw [hkind]; rfl⟩
  have hok := (hs.wellFormed.block b block hb).node [] m [] (by simp [hnodes]) node hnode
  rw [successor?_eq_slotTarget? hterm] at hi ⊢
  obtain ⟨target, hp⟩ := jump_of_admits hkind hok.admits
  simp only [hp, slotTarget?] at hi ⊢
  split at hi
  · simpa using hi
  · cases hi

/-- Pads that are looked through form a way from the block where the search ends. -/
theorem padPath_of_skipPads (hs : g.Sound) (hg : g.Analyzed)
    (hnat : Digraph.IsNaturalLoop g.flow entry loop)
    (hback : ∃ p ∈ loop.blocks, loop.header ∈ g.successors p) (fuel : Nat) {p : BlockId}
    (hp : p ∈ loop.blocks) (ht : t ∈ loop.blocks) (hpt : t ∈ g.successors p) :
    ∃ q ∈ g.successors (g.skipPads fuel p), q ∈ loop.blocks ∧ PadPath g q t := by
  induction fuel generalizing p t with
  | zero => exact ⟨t, hpt, ht, .refl⟩
  | succ fuel ih =>
    rcases g.skipPads_succ fuel p with ⟨before, hpad, hskip, _⟩ | ⟨hskip, _⟩
    · rw [hskip]
      obtain ⟨q, hq, hqmem, hpath⟩ := ih (before_mem hg hnat hback hp hpad) hp
        (hg.edge_of_isPadAfter hpad).2
      obtain ⟨block, hb, hflag, _⟩ := hpad
      exact ⟨q, hq, hqmem, hpath.trans
        (.pad (visit_pad hs hb hflag) (successor?_pad hs hb hflag hpt) .refl)⟩
    · rw [hskip]
      exact ⟨t, hpt, ht, .refl⟩

/-- **Where the tail stays in the loop**, it leads to the header over pads. -/
theorem Graph.LoopParts.padPath (hs : g.Sound) (hg : g.Analyzed)
    (hp : g.LoopParts loop preHeader shape.tail shape.next shape.inLoopSlot)
    (ht : g.successor? shape.tail shape.inLoopSlot = some t) : PadPath g t loop.header := by
  obtain ⟨p, hpmem, hpheader, hskip⟩ := hp.returning
  obtain ⟨q, hq, hqmem, hpath⟩ := padPath_of_skipPads hs hg hp.natural ⟨p, hpmem, hpheader⟩
    g.blocks.size hpmem hp.natural.header_mem hpheader
  rw [hskip] at hq
  obtain ⟨i, hi⟩ := mem_successors_iff_successor?.1 hq
  rcases hp.tail_slot hs.wellFormed hi with rfl | rfl
  · rw [ht] at hi
    obtain rfl := Option.some.inj hi
    exact hpath
  · rw [LoopShape.exitSlot, hp.exit] at hi
    obtain rfl := Option.some.inj hi
    exact absurd hqmem hp.next_notMem

/-- The header is entered from inside and from outside, so it is not looked through. -/
theorem Graph.LoopParts.header_notMem_lookedThrough (hg : g.Analyzed)
    (hp : g.LoopParts loop preHeader shape.tail shape.next shape.inLoopSlot) :
    loop.header ∉ g.lookedThrough loop.header := by
  intro hmem
  obtain ⟨before, hpad, _⟩ := hp.approach _ hmem
  obtain ⟨p, hpmem, hpheader, _⟩ := hp.returning
  obtain rfl := hg.eq_of_isPadAfter hpad (hp.natural.reaches hpmem) hpheader
  obtain ⟨q, hq, _⟩ := List.mem_flatMap.1 hmem
  obtain ⟨hqpred, hqdom⟩ : q ∈ g.predecessors loop.header ∧
      g.dominatorTree.dominates loop.header q = false := by simpa using hq
  have hlive := hg.wellFormed.isLive_of_reaches hp.natural.header_reaches
  obtain ⟨hqreach, hqedge⟩ := (hg.mem_predecessors_iff hlive).1 hqpred
  obtain rfl := hg.eq_of_isPadAfter hpad hqreach (hg.wellFormed.edge_iff.1 hqedge)
  rw [hg.dominates_iff.2 (hp.natural.dominated q hpmem)] at hqdom
  cases hqdom

/-! ## Copies -/

/-- The block `c` is the copy of `b` in a copy of the body that `r` others follow. -/
def Body (g : Graph) (loop : NaturalLoop) (shape : LoopShape) (h : Graph) (r : Nat)
    (b c : BlockId) : Prop :=
  ∃ Q following, Generation g loop shape h Q following ∧ Chain g loop shape h r following ∧
    (∀ b c, Q b c → g.blocks.size ≤ c ∨ c = b) ∧ Q b c

namespace Body

theorem mem (hb : Body g loop shape h r b c) : b ∈ loop.blocks := by
  obtain ⟨Q, following, hgen, _, _, hQ⟩ := hb
  exact hgen.member b c hQ

theorem place (hb : Body g loop shape h r b c) : g.blocks.size ≤ c ∨ c = b := by
  obtain ⟨Q, following, _, _, hplace, hQ⟩ := hb
  exact hplace b c hQ

theorem visit (hb : Body g loop shape h r b c) (hne : b ≠ shape.tail) (store : Store) :
    visit h c store = visit g b store := by
  obtain ⟨Q, following, hgen, _, _, hQ⟩ := hb
  exact hgen.visit b c hQ hne store

theorem steps (hb : Body g loop shape h r b c) (hne : b ≠ shape.tail) :
    stepCount? h c = stepCount? g b := by
  obtain ⟨Q, following, hgen, _, _, hQ⟩ := hb
  exact hgen.steps b c hQ hne

theorem successor (hb : Body g loop shape h r b c) (hne : b ≠ shape.tail)
    (ht : g.successor? b slot = some t) :
    ∃ t', h.successor? c slot = some t' ∧ Body g loop shape h r t t' := by
  obtain ⟨Q, following, hgen, hchain, hplace, hQ⟩ := hb
  obtain ⟨t', ht', hQ'⟩ := hgen.successor b c hQ hne slot t ht
  exact ⟨t', ht', Q, following, hgen, hchain, hplace, hQ'⟩

theorem exists_slot {t' : BlockId} (hb : Body g loop shape h r b c) (hne : b ≠ shape.tail)
    (ht : h.successor? c slot = some t') : ∃ t, g.successor? b slot = some t := by
  obtain ⟨Q, following, hgen, _, _, hQ⟩ := hb
  exact hgen.slot b c hQ hne slot t' ht

theorem tail (hb : Body g loop shape h r shape.tail c) :
    ∃ following, Chain g loop shape h r following ∧ TailLeads g shape following h c := by
  obtain ⟨Q, following, hgen, hchain, _, hQ⟩ := hb
  exact ⟨following, hchain, hgen.tail c hQ⟩

end Body

theorem Chain.body (hc : Chain g loop shape h (r + 1) c) :
    Body g loop shape h r shape.header c := by
  cases hc with
  | cons generation further head rest =>
    exact ⟨_, _, generation, rest, fun b c hQ => .inl (further b c hQ), head⟩

theorem Unrolled.body (hu : Unrolled g loop shape n first h) (hb : b ∈ loop.blocks) :
    Body g loop shape h n b b :=
  ⟨_, first, hu.original, hu.chain, fun _ _ hQ => .inr hQ.2, hb, rfl⟩

/-! ## Partial unrolling -/

/-- The beginning of a row of copies stands for the header. -/
theorem exists_body_of_chain
    (hp : g.LoopParts loop preHeader shape.tail shape.next shape.inLoopSlot)
    (hheader : shape.header = loop.header) (hpart : shape.isFull = false)
    (hu : Unrolled g loop shape n first h) (hc : Chain g loop shape h r c) :
    ∃ r, Body g loop shape h r loop.header c := by
  cases hc with
  | nil =>
    rw [hpart, hheader]
    exact ⟨n, hu.body hp.natural.header_mem⟩
  | cons generation further head rest =>
    exact ⟨_, hheader ▸ (Chain.cons generation further head rest).body⟩

/-- The block `c` of the unrolled graph stands for the block `b`: outside the loop it is that block,
inside it is a copy of it. -/
def Stands (g : Graph) (loop : NaturalLoop) (shape : LoopShape) (h : Graph) (b c : BlockId) :
    Prop :=
  g.flow.Reaches entry b ∧ ((b ∉ loop.blocks ∧ c = b) ∨ ∃ r, Body g loop shape h r b c)

theorem Unrolled.stands (hu : Unrolled g loop shape n first h) (hb : g.flow.Reaches entry b) :
    Stands g loop shape h b b := by
  by_cases hin : b ∈ loop.blocks
  · exact ⟨hb, .inr ⟨n, hu.body hin⟩⟩
  · exact ⟨hb, .inl ⟨hin, rfl⟩⟩

section part

variable (hs : g.Sound) (hg : g.Analyzed)
  (hp : g.LoopParts loop preHeader shape.tail shape.next shape.inLoopSlot)
  (hheader : shape.header = loop.header) (hpart : shape.isFull = false)
  (hu : Unrolled g loop shape n first h)

include hpart hu in
theorem Stands.visit_part (hb : Stands g loop shape h b c) (store : Store) :
    visit h c store = visit g b store := by
  obtain ⟨hreach, ⟨hout, rfl⟩ | ⟨r, hbody⟩⟩ := hb
  · exact hu.visit c hreach hout store
  · by_cases htail : b = shape.tail
    · subst htail
      obtain ⟨following, _, hleads⟩ := hbody.tail
      exact hleads.visit_part hpart store
    · exact hbody.visit htail store

include hpart hu in
theorem Stands.steps_part (hb : Stands g loop shape h b c) : stepCount? h c = stepCount? g b := by
  obtain ⟨hreach, ⟨hout, rfl⟩ | ⟨r, hbody⟩⟩ := hb
  · exact hu.steps c hreach hout
  · by_cases htail : b = shape.tail
    · subst htail
      obtain ⟨following, _, hleads⟩ := hbody.tail
      exact hleads.steps_part hpart
    · exact hbody.steps htail

include hs hp hheader hpart hu

/-- A slot of a block leads to a block that stands for where the slot led; where the tail stays in
the loop, the block that it leads to stands for the header. -/
theorem Stands.successor_part (hb : Stands g loop shape h b c) {i : Nat}
    (ht : g.successor? b i = some t) :
    ∃ c', h.successor? c i = some c' ∧ (Stands g loop shape h t c' ∨
      b = shape.tail ∧ i = shape.inLoopSlot ∧ Stands g loop shape h loop.header c') := by
  have hw := hs.wellFormed
  obtain ⟨hreach, hb⟩ := hb
  have hstep : g.flow.Reaches entry t :=
    hreach.step (hw.edge_iff.2 (mem_successors_of_successor? ht))
  -- a row of copies stands for the header
  have hrow : ∀ {r c}, Chain g loop shape h r c → Stands g loop shape h loop.header c :=
    fun hc => ⟨hp.natural.header_reaches, .inr (exists_body_of_chain hp hheader hpart hu hc)⟩
  rcases hb with ⟨hout, rfl⟩ | ⟨r, hbody⟩
  · rcases hu.successor c hreach hout i t ht with heq | ⟨_, rfl, heq⟩
    · exact ⟨t, heq, .inl (hu.stands hstep)⟩
    · exact ⟨first, heq, .inl (hheader ▸ hrow hu.chain)⟩
  · by_cases htail : b = shape.tail
    · subst htail
      obtain ⟨following, hchain, hleads⟩ := hbody.tail
      rcases hp.tail_slot hw ht with rfl | rfl
      · exact ⟨following, hleads.stay hpart, .inr ⟨rfl, rfl, hrow hchain⟩⟩
      · rw [LoopShape.exitSlot, hp.exit] at ht
        obtain rfl := Option.some.inj ht
        exact ⟨shape.next, hleads.exit hpart, .inl ⟨hstep, .inl ⟨hp.next_notMem, rfl⟩⟩⟩
    · obtain ⟨t', ht', hbody'⟩ := hbody.successor htail ht
      exact ⟨t', ht', .inl ⟨hstep, .inr ⟨r, hbody'⟩⟩⟩

include hg

/-- One visit in partial unrolling. -/
theorem matched_part (hb : Stands g loop shape h b c) :
    Matched g h (fun b _ c => Stands g loop shape h b c) b store c := by
  refine .of_visit_eq hs.wellFormed (hb.visit_part hpart hu store) fun i next t _ ht => ?_
  obtain ⟨c', hc', hstands | ⟨rfl, rfl, hstands⟩⟩ :=
    hb.successor_part hs hp hheader hpart hu ht
  · exact ⟨t, c', hc', .refl, hstands⟩
  · exact ⟨loop.header, c', hc', hp.padPath hs hg ht, hstands⟩

/-- **Partial unrolling** preserves what a graph returns. -/
theorem returns_iff_part : Returns g entry store v final ↔ Returns h entry store v final := by
  refine returns_iff (R := fun b _ c => Stands g loop shape h b c)
    (fun b store c hb => matched_part hs hg hp hheader hpart hu hb) 
    (hu.stands hs.wellFormed.reaches_entry)

end part

/-! ## Full unrolling -/

namespace CountedLoop

variable {initial bound x : Int32} (hc : CountedLoop g loop shape initial bound)

include hc

/-- The tail faults only in its body, and decides to leave by one of its slots. -/
theorem visit_tail (hx : store.getLocal shape.induction.slot = .int32 x) :
    (runBody g shape.tail store = none ∧ visit g shape.tail store = none) ∨
      ∃ next slot, runBody g shape.tail store = some next ∧
        visit g shape.tail store = some (.leave slot next) := by
  have hw := hc.analyzed.wellFormed
  obtain ⟨block, hb⟩ :=
    isLive_iff.1 (hw.isLive_of_reaches (hc.parts.natural.reaches hc.parts.tail_mem))
  obtain ⟨body, last, node, hsplit, hlast, hok, hterm⟩ := hw.terminal hb
  have hbranch : node.kind = .branch := by
    have := hc.parts.tail_branch
    simpa [endsInBranch, hterm] using this
  simp only [runBody, visit, hb, Option.bind_some, evalNodes, hsplit, List.getLast?_append,
    List.getLast?_singleton, Option.some_or, List.dropLast_concat, Option.bind_eq_bind, hlast]
  cases hev : evalBody g shape.tail body [] store with
  | none => exact .inl ⟨rfl, rfl⟩
  | some out =>
    obtain ⟨values, next⟩ := out
    have heval : Evaluated g shape.tail block body last store values next :=
      ⟨⟨hw, hb, hsplit⟩, hev⟩
    obtain ⟨z, _, _, hd⟩ := heval.decision_tail hc.pattern hc.parts.tail_mem hlast hbranch hx
      hc.bound_eq
    obtain ⟨slot, hslot⟩ : ∃ slot, decision g values last node = some (.slot slot) := ⟨_, hd⟩
    exact .inr ⟨next, slot, rfl, by simp [hslot, Decision.exit]⟩

variable (hs : g.Sound) (hheader : shape.header = loop.header) (hfull : shape.isFull = true)
  (hu : Unrolled g loop shape n first h)
  (htrips : TripsLeft shape.induction shape.inverse bound (n + 1) initial)

/-- Where the run of the unrolled graph stands: at the same block outside the loop, and in a copy
that `r` others follow while `r + 1` trips are left. -/
def Tracks (g : Graph) (loop : NaturalLoop) (shape : LoopShape) (initial bound : Int32) (h : Graph)
    (b : BlockId) (store : Store) (c : BlockId) : Prop :=
  g.flow.Reaches entry b ∧ Primed g loop shape initial b store ∧
    ((b ∉ loop.blocks ∧ c = b) ∨ ∃ r x, Body g loop shape h r b c ∧
      store.getLocal shape.induction.slot = .int32 x ∧
      TripsLeft shape.induction shape.inverse bound (r + 1) x)

include hs hheader hfull hu htrips

/-- One visit in full unrolling. -/
theorem matched_full (ht : Tracks g loop shape initial bound h b store c) :
    Matched g h (Tracks g loop shape initial bound h) b store c := by
  have hg := hc.analyzed
  have hw := hs.wellFormed
  have hp := hc.parts
  obtain ⟨hreach, hprimed, hr⟩ := ht
  have hstep : ∀ {i t}, g.successor? b i = some t → g.flow.Reaches entry t := fun ht =>
    hreach.step (hw.edge_iff.2 (mem_successors_of_successor? ht))
  rcases hr with ⟨hout, rfl⟩ | ⟨r, x, hbody, hx, hleft⟩
  · refine .of_visit_eq hw (hu.visit c hreach hout store) fun i next t hv ht => ?_
    have hsucc : h.successor? c i = some t := by
      rcases hu.successor c hreach hout i t ht with heq | ⟨hpart, _⟩
      · exact heq
      · simp [hfull] at hpart
    refine ⟨t, t, hsucc, .refl, hstep ht, hc.primed_step hreach hprimed hv ht, ?_⟩
    by_cases hin : t ∈ loop.blocks
    · -- control comes into the loop at its header, with all trips left
      have hedge := hw.edge_iff.2 (mem_successors_of_successor? ht)
      obtain rfl := hp.natural.edge_into hreach hedge hout hin
      have hlocal := hc.leave_approach hprimed
        (hp.entering c hreach (mem_successors_of_successor? ht) hout) hv
      exact .inr ⟨n, initial, hu.body hin, hlocal, htrips⟩
    · exact .inl ⟨hin, rfl⟩
  · by_cases htail : b = shape.tail
    · subst htail
      obtain ⟨following, hchain, hleads⟩ := hbody.tail
      have hvisit := hleads.visit_full hfull store
      have hfollowing := hleads.full hfull 0
      rw [if_pos rfl] at hfollowing
      rcases hc.visit_tail hx with ⟨hnone, hstuck⟩ | ⟨next, i, hsome, hv⟩
      · exact .stuck hstuck (by rw [hvisit, hnone]; rfl)
      rw [hsome] at hvisit
      obtain ⟨t, ht⟩ := successor_of_visit hw hv
      rcases hc.leave_tail hx hleft hv with ⟨hlast, rfl⟩ | ⟨r', z, hr', rfl, hz, hleft'⟩
      · -- the last trip: no copy follows
        obtain rfl : r = 0 := by omega
        have hnext := ht
        rw [LoopShape.exitSlot, hp.exit] at hnext
        obtain rfl := Option.some.inj hnext
        cases hchain
        rw [hfull, if_pos rfl] at hfollowing
        exact .leave hv ht .refl hvisit hfollowing ⟨hstep ht, hc.primed_step hreach hprimed hv ht,
          .inl ⟨hp.next_notMem, rfl⟩⟩
      · obtain ⟨r'', rfl⟩ : ∃ r'', r' = r'' + 1 := ⟨r' - 1, by have := hleft'.pos; omega⟩
        obtain rfl : r = r'' + 1 := by omega
        have hpath := hp.padPath hs hg ht
        refine .leave hv ht hpath hvisit hfollowing ⟨hp.natural.header_reaches, ?_, .inr
          ⟨r'', z, hheader ▸ hchain.body, hz, hleft'⟩⟩
        exact fun hmem => absurd hmem (hp.header_notMem_lookedThrough hg)
    · refine .of_visit_eq hw (hbody.visit htail store) fun i next t hv ht => ?_
      obtain ⟨t', ht', hbody'⟩ := hbody.successor htail ht
      refine ⟨t, t', ht', .refl, hstep ht, hc.primed_step hreach hprimed hv ht, .inr
        ⟨r, x, hbody', ?_, hleft⟩⟩
      rw [hc.leave_member hbody.mem htail hv, hx]

/-- **Full unrolling** preserves what a graph returns. -/
theorem returns_iff_full (hentry : entry ∉ g.lookedThrough loop.header) :
    Returns g entry store v final ↔ Returns h entry store v final := by
  refine returns_iff (R := Tracks g loop shape initial bound h)
    (fun b store c ht => hc.matched_full hs hheader hfull hu htrips ht)
    ⟨hs.wellFormed.reaches_entry, ?_, ?_⟩
  · exact fun hmem => absurd hmem hentry
  · exact .inl ⟨entry_notMem hc.parts, rfl⟩

end CountedLoop

/-! ## What leads to the entry -/

/-- The entry, if it is a pad, is not led to. -/
def Graph.EntryApart (g : Graph) : Prop :=
  ∀ block, g.block? entry = some block → block.flags.edgePad = true →
    ∀ b, g.flow.Reaches entry b → entry ∉ g.successors b

theorem Graph.EntryApart.notMem_lookedThrough (he : g.EntryApart) (hg : g.Analyzed)
    (hp : g.LoopParts loop preHeader shape.tail shape.next shape.inLoopSlot) :
    entry ∉ g.lookedThrough loop.header := by
  intro hmem
  obtain ⟨before, hpad, _⟩ := hp.approach entry hmem
  obtain ⟨hreach, hedge⟩ := hg.edge_of_isPadAfter hpad
  obtain ⟨block, hb, hflag, _⟩ := hpad
  exact he block hb hflag before hreach hedge

section flow

variable (hw : g.WellFormed)
  (hp : g.LoopParts loop preHeader shape.tail shape.next shape.inLoopSlot)
  (hheader : shape.header = loop.header) (hu : Unrolled g loop shape n first h)

include hw hp hheader hu

/-- What the beginning of a row of copies stands for. -/
theorem stands_of_chain (hc : Chain g loop shape h r c) :
    ∃ p t, g.flow.Reaches entry p ∧ t ∈ g.successors p ∧ Stands g loop shape h t c := by
  obtain ⟨p, hpmem, hpheader, _⟩ := hp.returning
  cases hc with
  | nil =>
    split
    · have hexit := mem_successors_of_successor? hp.exit
      have hreach := hp.natural.reaches hp.tail_mem
      exact ⟨shape.tail, shape.next, hreach, hexit, hreach.step (hw.edge_iff.2 hexit),
        .inl ⟨hp.next_notMem, rfl⟩⟩
    · rw [hheader]
      exact ⟨p, loop.header, hp.natural.reaches hpmem, hpheader, hp.natural.header_reaches,
        .inr ⟨n, hu.body hp.natural.header_mem⟩⟩
  | cons generation further head rest =>
    exact ⟨p, loop.header, hp.natural.reaches hpmem, hpheader, hp.natural.header_reaches,
      .inr ⟨_, hheader ▸ (Chain.cons generation further head rest).body⟩⟩

/-- One edge of the unrolled graph. -/
theorem stands_step (hs : Stands g loop shape h b c) {i : Nat} {c' : BlockId}
    (hc' : h.successor? c i = some c') :
    ∃ p t, g.flow.Reaches entry p ∧ t ∈ g.successors p ∧ Stands g loop shape h t c' := by
  obtain ⟨hreach, hstands⟩ := hs
  -- an edge of `g` from the block that `c` stands for
  have hedge : ∀ t, g.successor? b i = some t →
      (t ∉ loop.blocks ∧ c' = t) ∨ (∃ r, Body g loop shape h r t c') →
      ∃ p t, g.flow.Reaches entry p ∧ t ∈ g.successors p ∧ Stands g loop shape h t c' := by
    intro t ht hstands
    have hmem := mem_successors_of_successor? ht
    exact ⟨b, t, hreach, hmem, hreach.step (hw.edge_iff.2 hmem), hstands⟩
  rcases hstands with ⟨hout, rfl⟩ | ⟨r, hbody⟩
  · obtain ⟨t, ht⟩ := hu.slot c hreach hout i c' hc'
    rcases hu.successor c hreach hout i t ht with heq | ⟨_, rfl, heq⟩
    · rw [hc'] at heq
      obtain rfl := Option.some.inj heq
      refine hedge c' ht ?_
      by_cases hin : c' ∈ loop.blocks
      · exact .inr ⟨n, hu.body hin⟩
      · exact .inl ⟨hin, rfl⟩
    · rw [hc'] at heq
      obtain rfl := Option.some.inj heq
      exact stands_of_chain hw hp hheader hu hu.chain
  · by_cases htail : b = shape.tail
    · subst htail
      obtain ⟨following, hchain, hleads⟩ := hbody.tail
      cases hfull : shape.isFull with
      | true =>
        rw [hleads.full hfull] at hc'
        split at hc'
        · obtain rfl := Option.some.inj hc'
          exact stands_of_chain hw hp hheader hu hchain
        · cases hc'
      | false =>
        rcases hleads.slot hfull i c' hc' with rfl | rfl
        · rw [hleads.stay hfull] at hc'
          obtain rfl := Option.some.inj hc'
          exact stands_of_chain hw hp hheader hu hchain
        · rw [hleads.exit hfull] at hc'
          obtain rfl := Option.some.inj hc'
          exact hedge shape.next hp.exit (.inl ⟨hp.next_notMem, rfl⟩)
    · obtain ⟨t, ht⟩ := hbody.exists_slot htail hc'
      obtain ⟨t', ht', hbody'⟩ := hbody.successor htail ht
      rw [hc'] at ht'
      obtain rfl := Option.some.inj ht'
      exact hedge t ht (.inr ⟨r, hbody'⟩)

/-- Every reachable block of the unrolled graph stands for a reachable block. -/
theorem stands_of_reaches (hc : h.flow.Reaches entry c) : ∃ b, Stands g loop shape h b c := by
  refine hc.induction (P := fun c => ∃ b, Stands g loop shape h b c) ?_ ?_
  · exact ⟨entry, hw.reaches_entry, .inl ⟨entry_notMem hp, rfl⟩⟩
  · rintro c c' _ hedge ⟨b, hb⟩
    obtain ⟨i, _, hi⟩ := mem_successors_iff.1 hedge.2.2
    obtain ⟨_, t, _, _, ht⟩ := stands_step hw hp hheader hu hb hi
    exact ⟨t, ht⟩

/-- **Nothing comes to lead to the entry.** -/
theorem entryApart_of_unrolled (he : g.EntryApart) : h.EntryApart := by
  intro block hblock hpad c hc hmem
  obtain ⟨old, hold, hflag⟩ := hu.entry_pad block hblock
  obtain ⟨b, hb⟩ := stands_of_reaches hw hp hheader hu hc
  obtain ⟨i, _, hi⟩ := mem_successors_iff.1 hmem
  obtain ⟨p, t, hpreach, ht, _, hstands⟩ := stands_step hw hp hheader hu hb hi
  rcases hstands with ⟨_, rfl⟩ | ⟨r, hbody⟩
  · exact he old hold (hflag.trans hpad) p hpreach ht
  · rcases hbody.place with hsize | rfl
    · exact Nat.not_lt.2 hsize (lt_size_of_block? hold)
    · exact entry_notMem hp hbody.mem

end flow

end Unroller
