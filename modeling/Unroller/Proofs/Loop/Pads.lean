import Mathlib.Tactic
import Unroller.Proofs.Loop.Preservation

/-!
# Chains of pads

Looking back from a block through pads follows a chain of blocks, each the only one that leads to
the next.  A pad leads to one block, so a chain that starts before a block with two predecessors
never comes to a pad twice, and there are too few blocks for the search to be given up.

* `reflTransGen_skipPads`: what the search finds is the end of a chain of pads.
* `nodup_padsBefore`: the chain has no pad twice; `not_isPadAfter_skipPads`: it is followed to its
  end.
* `backPads`: the pads between the tail of a loop and its header; `predecessor_of_mem_backPads`,
  `successor_of_mem_backPads`: what leads to them and where they lead.
* `mem_backPads_iff`: they are the members from which one comes to the header over pads alone.
-/

namespace Unroller.Graph

open Unroller.Digraph (IsNaturalLoop)

variable {g : Graph} {b c d t before : BlockId} {loop : NaturalLoop} {shape : LoopShape}
  {preHeader : BlockId} {fuel : Nat}

/-! ## One step back -/

theorem skipPads_of_isPadAfter (h : g.IsPadAfter b before) (fuel : Nat) :
    g.skipPads (fuel + 1) b = g.skipPads fuel before ∧
      g.padsBefore (fuel + 1) b = b :: g.padsBefore fuel before := by
  obtain ⟨block, hb, hpad, hpreds⟩ := h
  simp [skipPads, padsBefore, hb, hpad, hpreds]

theorem reflTransGen_skipPads (g : Graph) (fuel : Nat) (b : BlockId) :
    Relation.ReflTransGen g.IsPadAfter b (g.skipPads fuel b) := by
  induction fuel generalizing b with
  | zero => exact .refl
  | succ fuel ih =>
    rcases g.skipPads_succ fuel b with ⟨before, hpad, hskip, _⟩ | ⟨hskip, _⟩
    · rw [hskip]
      exact .head hpad (ih before)
    · rw [hskip]

/-- A search that is not given up ends at a block that is not looked through. -/
theorem not_isPadAfter_or_length (g : Graph) (fuel : Nat) (b : BlockId) :
    (∀ q, ¬ g.IsPadAfter (g.skipPads fuel b) q) ∨ (g.padsBefore fuel b).length = fuel := by
  induction fuel generalizing b with
  | zero => exact .inr rfl
  | succ fuel ih =>
    by_cases h : ∃ before, g.IsPadAfter b before
    · obtain ⟨before, hpad⟩ := h
      obtain ⟨hskip, hpads⟩ := skipPads_of_isPadAfter hpad fuel
      rw [hskip, hpads, List.length_cons, Nat.add_right_cancel_iff]
      exact ih before
    · rcases g.skipPads_succ fuel b with ⟨before, hpad, _⟩ | ⟨hskip, _⟩
      · exact absurd ⟨before, hpad⟩ h
      · rw [hskip]
        exact .inl fun q hq => h ⟨q, hq⟩

/-- A pad looked through is where the search began, or the only one before another. -/
theorem exists_isPadAfter_of_mem (h : c ∈ g.padsBefore fuel b) :
    c = b ∨ ∃ d ∈ g.padsBefore fuel b, g.IsPadAfter d c := by
  induction fuel generalizing b with
  | zero => simp [padsBefore] at h
  | succ fuel ih =>
    rcases g.skipPads_succ fuel b with ⟨before, hpad, _, hpads⟩ | ⟨_, hpads⟩
    · rw [hpads] at h ⊢
      rcases List.mem_cons.1 h with rfl | h
      · exact .inl rfl
      · rcases ih h with rfl | ⟨d, hd, hdc⟩
        · exact .inr ⟨b, List.mem_cons_self .., hpad⟩
        · exact .inr ⟨d, List.mem_cons_of_mem _ hd, hdc⟩
    · simp [hpads] at h

/-- The pad that the search comes to last comes right after the block where it ends. -/
theorem padsBefore_eq_nil_or_last (g : Graph) (fuel : Nat) (b : BlockId) :
    (g.padsBefore fuel b = [] ∧ g.skipPads fuel b = b) ∨
      ∃ c ∈ g.padsBefore fuel b, g.IsPadAfter c (g.skipPads fuel b) := by
  induction fuel generalizing b with
  | zero => exact .inl ⟨rfl, rfl⟩
  | succ fuel ih =>
    rcases g.skipPads_succ fuel b with ⟨before, hpad, hskip, hpads⟩ | ⟨hskip, hpads⟩
    · rw [hskip, hpads]
      rcases ih before with ⟨_, hend⟩ | ⟨c, hc, hlast⟩
      · exact .inr ⟨b, List.mem_cons_self .., by rw [hend]; exact hpad⟩
      · exact .inr ⟨c, List.mem_cons_of_mem _ hc, hlast⟩
    · exact .inl ⟨hpads, hskip⟩

/-! ## Chains have no pad twice -/

/-- A block that splits an edge. -/
def IsPad (g : Graph) (b : BlockId) : Prop :=
  ∃ block, g.block? b = some block ∧ block.flags.edgePad = true

theorem IsPadAfter.isPad (h : g.IsPadAfter b before) : g.IsPad b := by
  obtain ⟨block, hb, hpad, _⟩ := h
  exact ⟨block, hb, hpad⟩

theorem SameCode.isPad_iff {h : Graph} (hs : SameCode g h b) : h.IsPad b ↔ g.IsPad b := by
  obtain ⟨⟨old, new, hold, hnew, _, hflag⟩, _⟩ := hs
  constructor
  · rintro ⟨block, hb, hpad⟩
    obtain rfl := Option.some.inj (hnew.symm.trans hb)
    exact ⟨old, hold, hflag ▸ hpad⟩
  · rintro ⟨block, hb, hpad⟩
    obtain rfl := Option.some.inj (hold.symm.trans hb)
    exact ⟨new, hnew, hflag.trans hpad⟩

/-- A pad is looked through if a single block leads to it. -/
theorem Analyzed.isPadAfter_iff (hg : g.Analyzed) : g.IsPadAfter b before ↔
    g.IsPad b ∧ ∀ c, g.flow.Reaches entry c ∧ b ∈ g.successors c ↔ c = before := by
  constructor
  · intro h
    refine ⟨h.isPad, fun c => ⟨fun hc => hg.eq_of_isPadAfter h hc.1 hc.2, ?_⟩⟩
    rintro rfl
    exact hg.edge_of_isPadAfter h
  · rintro ⟨⟨block, hb, hpad⟩, hpreds⟩
    refine ⟨block, hb, hpad, List.perm_singleton.1 ?_⟩
    refine (List.perm_ext_iff_of_nodup (hg.reach.nodup_preds b block hb)
      (List.nodup_singleton before)).2 fun c => ?_
    rw [hg.reach.mem_preds_iff b block hb, hpreds, List.mem_singleton]

/-- A block that two blocks lead to is not looked through. -/
theorem Analyzed.not_isPadAfter_of_ne (hg : g.Analyzed) (hc : g.flow.Reaches entry c)
    (hcb : b ∈ g.successors c) (hd : g.flow.Reaches entry d) (hdb : b ∈ g.successors d)
    (hne : c ≠ d)
    (q : BlockId) : ¬ g.IsPadAfter b q := fun h =>
  hne ((hg.eq_of_isPadAfter h hc hcb).trans (hg.eq_of_isPadAfter h hd hdb).symm)

/-- A pad leads to one block. -/
theorem IsPad.successor_unique (h : g.IsPad b) (hs : g.Sound) (hc : c ∈ g.successors b)
    (ht : t ∈ g.successors b) : c = t := by
  obtain ⟨block, hb, hpad⟩ := h
  have h₁ := successor?_pad hs hb hpad hc
  rw [successor?_pad hs hb hpad ht] at h₁
  exact (Option.some.inj h₁).symm

theorem isPadAfter_of_mem_padsBefore (h : c ∈ g.padsBefore fuel b) : ∃ q, g.IsPadAfter c q := by
  obtain ⟨q, hq, _⟩ := (g.padsBefore_chain fuel b).2 c h
  exact ⟨q, hq⟩

/-- The chain before an edge to `t` has no pad twice, unless it comes to `t` itself. -/
theorem nodup_padsBefore (hs : g.Sound) (hg : g.Analyzed) (ht : t ∈ g.successors b)
    (hnot : t ∉ g.padsBefore fuel b) : (g.padsBefore fuel b).Nodup := by
  induction fuel generalizing b t with
  | zero => exact List.nodup_nil
  | succ fuel ih =>
    rcases g.skipPads_succ fuel b with ⟨before, hpad, _, hpads⟩ | ⟨_, hpads⟩
    · rw [hpads] at hnot ⊢
      have hedge := (hg.edge_of_isPadAfter hpad).2
      -- were `b` further back in the chain, `t` would come right after it there
      have hb : b ∉ g.padsBefore fuel before := by
        intro hmem
        rcases exists_isPadAfter_of_mem hmem with rfl | ⟨d, hd, hdb⟩
        · exact hnot (hpad.isPad.successor_unique hs ht hedge ▸ List.mem_cons_self ..)
        · obtain rfl := hpad.isPad.successor_unique hs ht (hg.edge_of_isPadAfter hdb).2
          exact hnot (List.mem_cons_of_mem _ hd)
      exact List.nodup_cons.2 ⟨hb, ih hedge hb⟩
    · simp [hpads]

/-- **The chain before a block that is no pad is followed to its end.** -/
theorem not_isPadAfter_skipPads (hs : g.Sound) (hg : g.Analyzed) (ht : t ∈ g.successors b)
    (hpad : ∀ q, ¬ g.IsPadAfter t q) (q : BlockId) :
    ¬ g.IsPadAfter (g.skipPads g.blocks.size b) q := by
  have hnot : t ∉ g.padsBefore g.blocks.size b := by
    intro hmem
    obtain ⟨q, hq⟩ := isPadAfter_of_mem_padsBefore hmem
    exact hpad q hq
  rcases g.not_isPadAfter_or_length g.blocks.size b with hend | hlength
  · exact hend q
  · -- the chain and `t` would be more blocks than there are
    have hnodup : (t :: g.padsBefore g.blocks.size b).Nodup :=
      List.nodup_cons.2 ⟨hnot, nodup_padsBefore hs hg ht hnot⟩
    have hlt : ∀ c ∈ t :: g.padsBefore g.blocks.size b, c < g.blocks.size := by
      intro c hc
      rcases List.mem_cons.1 hc with rfl | hc
      · exact (hg.wellFormed.edge_iff.2 ht).right_lt
      · obtain ⟨q, block, hb, _⟩ := isPadAfter_of_mem_padsBefore hc
        exact lt_size_of_block? hb
    have hsub : t :: g.padsBefore g.blocks.size b ⊆ List.range g.blocks.size :=
      fun c hc => List.mem_range.2 (hlt c hc)
    have hle := (hnodup.subperm hsub).length_le
    rw [List.length_cons, hlength, List.length_range] at hle
    omega

/-! ## Back to the header -/

namespace LoopParts

/-- Control comes to the header from outside. -/
theorem exists_outside (hp : g.LoopParts loop preHeader shape.tail shape.next shape.inLoopSlot) :
    ∃ p, g.flow.Reaches entry p ∧ g.flow.Edge p loop.header ∧ p ∉ loop.blocks := by
  obtain ⟨vs, hw⟩ := hp.natural.header_reaches
  obtain ⟨p, hav, hedge⟩ := hw.first_edge_into hw.right_mem hp.header_ne.symm
  refine ⟨p, hav.reaches, hedge, fun hmem => ?_⟩
  exact (Digraph.dominates_iff.1 (hp.natural.dominated p hmem)).2 hav

/-- The header is entered from inside and from outside, so it is not looked through. -/
theorem not_isPadAfter_header (hg : g.Analyzed)
    (hp : g.LoopParts loop preHeader shape.tail shape.next shape.inLoopSlot) (q : BlockId) :
    ¬ g.IsPadAfter loop.header q := by
  obtain ⟨p, hreach, hedge, hout⟩ := hp.exists_outside
  obtain ⟨r, hr, hrheader, _⟩ := hp.returning
  exact hg.not_isPadAfter_of_ne hreach (hg.wellFormed.edge_iff.1 hedge) (hp.natural.reaches hr)
    hrheader (fun heq => hout (heq ▸ hr)) q

/-- The tail branches, so it is no pad. -/
theorem not_isPad_tail (hs : g.Sound)
    (hp : g.LoopParts loop preHeader shape.tail shape.next shape.inLoopSlot) :
    ¬ g.IsPad shape.tail := by
  intro hpad
  obtain ⟨stay, hstay, hslot⟩ := hp.stay
  have heq := hpad.successor_unique hs (mem_successors_of_successor? hslot)
    (mem_successors_of_successor? hp.exit)
  exact hp.next_notMem (heq ▸ hstay)

end LoopParts

/-- What was found on the way back from the header, for each block that leads to it. -/
theorem Accepted.skipPads_inside {config : UnrollConfig} (ha : g.Accepted config loop shape)
    (hg : g.Analyzed) (hloop : loop ∈ g.loopForest.loops) {p : BlockId} (hp : p ∈ loop.blocks)
    (hedge : loop.header ∈ g.successors p) : g.skipPads g.blocks.size p = shape.tail := by
  have hnat := hg.isNaturalLoop hloop
  have hlive := hg.wellFormed.isLive_of_reaches hnat.header_reaches
  have hpred := (hg.mem_predecessors_iff hlive).2
    ⟨hnat.reaches hp, hg.wellFormed.edge_iff.2 hedge⟩
  have hmem := mem_enteringBlocks.2
    ⟨p, hpred, hg.dominates_iff.2 (hnat.dominated p hp), rfl⟩
  rw [(loopTail_eq_ok ha.bottom).1] at hmem
  simpa using hmem

theorem Accepted.skipPads_outside {config : UnrollConfig} (ha : g.Accepted config loop shape)
    (hg : g.Analyzed) (hloop : loop ∈ g.loopForest.loops) {p : BlockId}
    (hreach : g.flow.Reaches entry p) (hp : p ∉ loop.blocks)
    (hedge : loop.header ∈ g.successors p) :
    g.skipPads g.blocks.size p = shape.preHeader := by
  have hnat := hg.isNaturalLoop hloop
  have hlive := hg.wellFormed.isLive_of_reaches hnat.header_reaches
  have hflow := hg.wellFormed.edge_iff.2 hedge
  have hdom : g.dominatorTree.dominates loop.header p = false := by
    by_contra hdom
    exact hp (hnat.back p hflow (hg.dominates_iff.1 (by simpa using hdom)))
  have hmem :=
    mem_enteringBlocks.2 ⟨p, (hg.mem_predecessors_iff hlive).2 ⟨hreach, hflow⟩, hdom, rfl⟩
  rw [preHeader_eq_ok ha.preHeader] at hmem
  simpa using hmem

/-! ## The pads on the back edge -/

/-- The pads looked through between a header and the tail of its loop. -/
def backPads (g : Graph) (header : BlockId) : List BlockId :=
  ((g.predecessors header).filter fun p => g.dominatorTree.dominates header p).flatMap
    (g.padsBefore g.blocks.size)

theorem mem_backPads_iff_padsBefore (hg : g.Analyzed) (hnat : IsNaturalLoop g.flow entry loop) :
    b ∈ g.backPads loop.header ↔ ∃ p ∈ loop.blocks, loop.header ∈ g.successors p ∧
      b ∈ g.padsBefore g.blocks.size p := by
  have hlive := hg.wellFormed.isLive_of_reaches hnat.header_reaches
  simp only [backPads, List.mem_flatMap, List.mem_filter, hg.mem_predecessors_iff hlive,
    hg.dominates_iff, hg.wellFormed.edge_iff]
  constructor
  · rintro ⟨p, ⟨⟨_, hedge⟩, hdom⟩, hb⟩
    exact ⟨p, hnat.back p (hg.wellFormed.edge_iff.2 hedge) hdom, hedge, hb⟩
  · rintro ⟨p, hp, hedge, hb⟩
    exact ⟨p, ⟨⟨hnat.reaches hp, hedge⟩, hnat.dominated p hp⟩, hb⟩

/-- From the pads of a chain one comes to what follows the chain over pads alone. -/
theorem transGen_of_mem_padsBefore (hg : g.Analyzed) (ht : t ∈ g.successors b)
    (hc : c ∈ g.padsBefore fuel b) :
    Relation.TransGen (fun c d => g.IsPad c ∧ d ∈ g.successors c) c t := by
  induction fuel generalizing b t with
  | zero => simp [padsBefore] at hc
  | succ fuel ih =>
    rcases g.skipPads_succ fuel b with ⟨before, hpad, _, hpads⟩ | ⟨_, hpads⟩
    · rw [hpads] at hc
      rcases List.mem_cons.1 hc with rfl | hc
      · exact .single ⟨hpad.isPad, ht⟩
      · exact (ih (hg.edge_of_isPadAfter hpad).2 hc).tail ⟨hpad.isPad, ht⟩
    · simp [hpads] at hc

section backPads

variable (hs : g.Sound) (hg : g.Analyzed)
  (hp : g.LoopParts loop preHeader shape.tail shape.next shape.inLoopSlot)
  (hback : ∀ p ∈ loop.blocks, loop.header ∈ g.successors p →
    g.skipPads g.blocks.size p = shape.tail)

include hg hp hback

omit hback in
theorem mem_of_mem_backPads (hb : b ∈ g.backPads loop.header) : b ∈ loop.blocks := by
  obtain ⟨p, hpmem, hedge, hb⟩ := (mem_backPads_iff_padsBefore hg hp.natural).1 hb
  suffices h : ∀ fuel p, p ∈ loop.blocks → b ∈ g.padsBefore fuel p → b ∈ loop.blocks from
    h _ p hpmem hb
  intro fuel
  induction fuel with
  | zero => simp [padsBefore]
  | succ fuel ih =>
    intro q hq hb
    rcases g.skipPads_succ fuel q with ⟨before, hpad, _, hpads⟩ | ⟨_, hpads⟩
    · rw [hpads] at hb
      rcases List.mem_cons.1 hb with rfl | hb
      · exact hq
      · exact ih before (before_mem hg hp.natural ⟨p, hpmem, hedge⟩ hq hpad) hb
    · simp [hpads] at hb

/-- What leads to a pad on the back edge is another one or the tail. -/
theorem isPadAfter_of_mem_backPads (hb : b ∈ g.backPads loop.header) :
    ∃ before, g.IsPadAfter b before ∧
      (before ∈ g.backPads loop.header ∨ before = shape.tail) := by
  obtain ⟨p, hpmem, hedge, hb⟩ := (mem_backPads_iff_padsBefore hg hp.natural).1 hb
  obtain ⟨before, hpad, hbefore⟩ := (g.padsBefore_chain _ p).2 b hb
  refine ⟨before, hpad, hbefore.imp (fun h => ?_) fun h => h.trans (hback p hpmem hedge)⟩
  exact (mem_backPads_iff_padsBefore hg hp.natural).2 ⟨p, hpmem, hedge, h⟩

theorem predecessor_of_mem_backPads (hb : b ∈ g.backPads loop.header)
    (hc : g.flow.Reaches entry c) (hcb : b ∈ g.successors c) :
    c ∈ g.backPads loop.header ∨ c = shape.tail := by
  obtain ⟨before, hpad, hbefore⟩ := isPadAfter_of_mem_backPads hg hp hback hb
  rw [hg.eq_of_isPadAfter hpad hc hcb]
  exact hbefore

/-- A member that leads to the header is the tail or a pad on the back edge. -/
theorem mem_backPads_of_edge (hb : b ∈ loop.blocks) (hedge : loop.header ∈ g.successors b) :
    b ∈ g.backPads loop.header ∨ b = shape.tail := by
  rcases (g.padsBefore_chain g.blocks.size b).1 with hpad | heq
  · exact .inl ((mem_backPads_iff_padsBefore hg hp.natural).2 ⟨b, hb, hedge, hpad⟩)
  · exact .inr (heq.trans (hback b hb hedge))

theorem header_notMem_backPads : loop.header ∉ g.backPads loop.header := by
  intro hmem
  obtain ⟨before, hpad, _⟩ := isPadAfter_of_mem_backPads hg hp hback hmem
  exact hp.not_isPadAfter_header hg before hpad

include hs

theorem tail_notMem_backPads : shape.tail ∉ g.backPads loop.header := by
  intro hmem
  obtain ⟨before, hpad, _⟩ := isPadAfter_of_mem_backPads hg hp hback hmem
  exact hp.not_isPad_tail hs hpad.isPad

omit hback in
/-- A pad on the back edge leads to another one or to the header. -/
theorem successor_of_mem_backPads (hb : b ∈ g.backPads loop.header) (ht : t ∈ g.successors b) :
    t ∈ g.backPads loop.header ∨ t = loop.header := by
  obtain ⟨p, hpmem, hedge, hb⟩ := (mem_backPads_iff_padsBefore hg hp.natural).1 hb
  obtain ⟨q, hq⟩ := isPadAfter_of_mem_padsBefore hb
  rcases exists_isPadAfter_of_mem hb with rfl | ⟨d, hd, hdb⟩
  · exact .inr (hq.isPad.successor_unique hs ht hedge)
  · obtain rfl := hq.isPad.successor_unique hs ht (hg.edge_of_isPadAfter hdb).2
    exact .inl ((mem_backPads_iff_padsBefore hg hp.natural).2 ⟨p, hpmem, hedge, hd⟩)

omit hs hback in
/-- Where the tail stays in the loop, it leads to a pad on the back edge or to the header. -/
theorem stay_of_backPads (ht : g.successor? shape.tail shape.inLoopSlot = some t) :
    t ∈ g.backPads loop.header ∨ t = loop.header := by
  obtain ⟨p, hpmem, hedge, hskip⟩ := hp.returning
  -- the tail leads to `c` in the loop, so it does by the slot that stays there
  have hslot : ∀ c ∈ loop.blocks, c ∈ g.successors shape.tail → t = c := by
    intro c hc hedge
    obtain ⟨i, hi⟩ := mem_successors_iff_successor?.1 hedge
    rcases hp.tail_slot hg.wellFormed hi with rfl | rfl
    · exact Option.some.inj (ht.symm.trans hi)
    · rw [LoopShape.exitSlot, hp.exit] at hi
      exact absurd (Option.some.inj hi ▸ hc) hp.next_notMem
  rcases g.padsBefore_eq_nil_or_last g.blocks.size p with ⟨_, hend⟩ | ⟨c, hc, hlast⟩
  · rw [hskip] at hend
    exact .inr (hslot _ hp.natural.header_mem (hend ▸ hedge))
  · rw [hskip] at hlast
    have hmem := (mem_backPads_iff_padsBefore hg hp.natural).2 ⟨p, hpmem, hedge, hc⟩
    rw [hslot c (mem_of_mem_backPads hg hp hmem) (hg.edge_of_isPadAfter hlast).2]
    exact .inl hmem

/-- **The pads on the back edge** are the members from which one comes to the header over pads. -/
theorem mem_backPads_iff : b ∈ g.backPads loop.header ↔ b ∈ loop.blocks ∧
    Relation.TransGen (fun c d => g.IsPad c ∧ d ∈ g.successors c) b loop.header := by
  constructor
  · intro hb
    refine ⟨mem_of_mem_backPads hg hp hb, ?_⟩
    obtain ⟨p, _, hedge, hb⟩ := (mem_backPads_iff_padsBefore hg hp.natural).1 hb
    exact transGen_of_mem_padsBefore hg hedge hb
  · rintro ⟨hb, hway⟩
    induction hway using Relation.TransGen.head_induction_on with
    | single hstep =>
      refine (mem_backPads_of_edge hg hp hback hb hstep.2).resolve_right ?_
      rintro rfl
      exact hp.not_isPad_tail hs hstep.1
    | @head c d hstep _ ih =>
      have hne : c ≠ shape.tail := by
        rintro rfl
        exact hp.not_isPad_tail hs hstep.1
      have hd := ih (hp.closed c hb hne d hstep.2)
      exact (predecessor_of_mem_backPads hg hp hback hd (hp.natural.reaches hb)
        hstep.2).resolve_right hne

end backPads

end Unroller.Graph
