import Mathlib.Tactic
import Unroller.Proofs.Loop.Stitching

/-!
# Unrolling one loop

When the copies of the body stand in a row, the tail of the loop itself is led to the first of them,
and what has become unreachable is removed.

* `Unrolled`: what the graph is like before the removal.
* `unrolled_full`, `unrolled_part`: it is so when the tail has been led to the copies.
* `exists_unrolled`, `unrollLoop_of_ok`: the two steps of unrolling; `unrollLoop_ok`: unrolling an
  accepted loop succeeds.
-/

namespace Unroller

open Unroller.Graph Machine Cloning

variable {g h k : Graph} {loop : NaturalLoop} {shape : LoopShape} {preHeader first b : BlockId}
  {n : Nat}

/-- The graph `h` is `g` with `n` copies of the body of a loop, the first of them at `first`. -/
structure Unrolled (g : Graph) (loop : NaturalLoop) (shape : LoopShape) (n : Nat) (first : BlockId)
    (h : Graph) : Prop where
  sound : h.Sound
  unlinked : (g.form = .loadStore → g.Unlinked) → h.form = .loadStore → h.Unlinked
  chain : Chain g loop shape h n first
  original : Generation g loop shape h (fun b c => b ∈ loop.blocks ∧ c = b) first
  visit : ∀ b, g.flow.Reaches entry b → b ∉ loop.blocks →
    ∀ store, visit h b store = visit g b store
  steps : ∀ b, g.flow.Reaches entry b → b ∉ loop.blocks → stepCount? h b = stepCount? g b
  successor : ∀ b, g.flow.Reaches entry b → b ∉ loop.blocks → ∀ slot t,
    g.successor? b slot = some t → h.successor? b slot = some t ∨
      (shape.isFull = false ∧ t = shape.header ∧ h.successor? b slot = some first)
  slot : ∀ b, g.flow.Reaches entry b → b ∉ loop.blocks → ∀ slot t',
    h.successor? b slot = some t' → ∃ t, g.successor? b slot = some t
  entry_pad : ∀ block, h.block? entry = some block → ∃ old, g.block? entry = some old ∧
    old.flags.edgePad = block.flags.edgePad

/-- The loop itself is the last copy of its body, once its tail has been seen to. -/
theorem generation_original (hw : g.WellFormed)
    (hp : g.LoopParts loop preHeader shape.tail shape.next shape.inLoopSlot)
    (hs : ∀ b ∈ loop.blocks, b ≠ shape.tail → SameCode g h b)
    (htail : TailLeads g shape first h shape.tail) (hlive : h.isLive shape.tail = true) :
    Generation g loop shape h (fun b c => b ∈ loop.blocks ∧ c = b) first where
  member := fun b c hb => hb.1
  live := by
    rintro b c ⟨hb, rfl⟩
    by_cases hc : c = shape.tail
    · rw [hc, hlive]
    · exact (hs c hb hc).isLive
  visit := by
    rintro b c ⟨hb, rfl⟩ hne store
    exact visit_sameCode hw (hs c hb hne) store
  steps := by
    rintro b c ⟨hb, rfl⟩ hne
    exact stepCount?_sameCode (hs c hb hne)
  successor := by
    rintro b c ⟨hb, rfl⟩ hne slot t ht
    exact ⟨t, by rw [(hs c hb hne).successor, ht],
      hp.closed c hb hne t (mem_successors_of_successor? ht), rfl⟩
  slot := by
    rintro b c ⟨hb, rfl⟩ hne slot t ht
    exact ⟨t, by rw [← (hs c hb hne).successor, ht]⟩
  tail := by
    rintro c ⟨_, rfl⟩
    exact htail

theorem ne_tail_of_notMem
    (hp : g.LoopParts loop preHeader shape.tail shape.next shape.inLoopSlot)
    (hb : b ∉ loop.blocks) : b ≠ shape.tail := by
  rintro rfl
  exact hb hp.tail_mem

theorem entry_notMem (hp : g.LoopParts loop preHeader shape.tail shape.next shape.inLoopSlot) :
    entry ∉ loop.blocks :=
  fun hmem => hp.header_ne (hp.natural.eq_header_of_entry_mem hmem)

/-- In full unrolling the tail is cut short. -/
theorem unrolled_full (hw : g.WellFormed)
    (hp : g.LoopParts loop preHeader shape.tail shape.next shape.inLoopSlot)
    (hfull : shape.isFull = true) (he : Enlarged g k) (hfirst : k.isLive first = true)
    (hchain : Chain g loop shape k n first) :
    ∃ h, k.convertToJump shape.tail first = .ok h ∧ Unrolled g loop shape n first h := by
  have hkw := he.sound.wellFormed
  have htail : g.isLive shape.tail = true :=
    hw.isLive_of_reaches (hp.natural.reaches hp.tail_mem)
  have hsame := he.sameCode shape.tail htail
  obtain ⟨t, hsecond⟩ := hp.exists_second
  obtain ⟨block, m, last, hb, hterm, hkind⟩ :=
    not_jump_of_second hkw ((hsame.successor 1).trans hsecond)
  obtain ⟨h, kept, jump, hok, hcut⟩ := convertToJump_ok hb hterm hkind first
  -- every block but the tail has the code it had
  have hkept : ∀ b, g.isLive b = true → b ≠ shape.tail → SameCode g h b := fun b hb hne =>
    (he.sameCode b hb).trans (hcut.sameCode hkw (he.sameCode b hb).isLive hne)
  have hreached : ∀ b, g.flow.Reaches entry b → b ∉ loop.blocks → SameCode g h b :=
    fun b hb hout => hkept b (hw.isLive_of_reaches hb) (ne_tail_of_notMem hp hout)
  refine ⟨h, hok,
    { sound := hcut.sound he.sound hb hterm hkind hfirst
      unlinked := ?unlinked
      chain := ?chain
      original := ?original
      visit := ?visit
      steps := ?steps
      successor := ?successor
      slot := ?slot
      entry_pad := ?entry_pad }⟩
  case unlinked =>
    intro hu hform
    exact hcut.unlinked hkw hb (he.unlinked (hu (by rw [← he.form, ← hcut.grows.form, hform])))
  case chain =>
    refine hchain.mono hkw fun d hd hlive => hcut.sameCode hkw hlive ?_
    obtain ⟨other, hother⟩ := isLive_iff.1 htail
    exact Nat.ne_of_gt (Nat.lt_of_lt_of_le (lt_size_of_block? hother) hd)
  case original =>
    refine generation_original hw hp
      (fun b hb hne => hkept b (hw.isLive_of_reaches (hp.natural.reaches hb)) hne)
      (tailLeads_cut hfull hkw hb hcut fun store => runBody_sameCode hw hsame store)
      (isLive_of_block? hcut.block?_self)
  case visit => exact fun b hb hout store => visit_sameCode hw (hreached b hb hout) store
  case steps => exact fun b hb hout => stepCount?_sameCode (hreached b hb hout)
  case successor =>
    exact fun b hb hout slot t ht => .inl (by rw [(hreached b hb hout).successor, ht])
  case slot => exact fun b hb hout slot t ht => ⟨t, by rw [← (hreached b hb hout).successor, ht]⟩
  case entry_pad =>
    intro block hblock
    obtain ⟨⟨old, new, hold, hnew, _, hpad⟩, _⟩ :=
      hkept entry hw.entry_live (ne_tail_of_notMem hp (entry_notMem hp))
    rw [hblock] at hnew
    obtain rfl := Option.some.inj hnew
    exact ⟨old, hold, hpad.symm⟩

section part

variable (hw : g.WellFormed)
  (hp : g.LoopParts loop preHeader shape.tail shape.next shape.inLoopSlot) (he : Enlarged g k)
  (hr : Redirected k shape.tail shape.inLoopSlot first h)

include he in
/-- A block that shares the targets of the tail leads where the tail leads. -/
theorem successor?_of_sharesRecord (htail : g.isLive shape.tail = true) (hb : g.isLive b = true)
    (hshare : SharesRecord k shape.tail b) (i : Nat) :
    g.successor? b i = g.successor? shape.tail i := by
  rw [← (he.sameCode b hb).successor, hshare.successor?_eq, (he.sameCode _ htail).successor]

include hw he hp hr

/-- No other block of the loop shares the targets of the tail: it would leave the loop. -/
theorem sameCode_member_redirected (hb : b ∈ loop.blocks) (hbtail : b ≠ shape.tail) :
    SameCode g h b := by
  have hblive := hw.isLive_of_reaches (hp.natural.reaches hb)
  have htail := hw.isLive_of_reaches (hp.natural.reaches hp.tail_mem)
  have hs := he.sameCode b hblive
  refine hs.trans (hr.toRetargeted.sameCode hs.isLive (hr.apart b hbtail fun hshare => ?_))
  have hexit := successor?_of_sharesRecord he htail hblive hshare shape.exitSlot
  rw [LoopShape.exitSlot, hp.exit] at hexit
  exact hp.next_notMem (hp.closed b hb hbtail _ (mem_successors_of_successor? hexit))

/-- A block outside the loop that shares the targets of the tail comes to the header by the slot
that is led elsewhere. -/
theorem successor?_outside_redirected (hb : g.flow.Reaches entry b) (hout : b ∉ loop.blocks)
    (i : Nat) : h.successor? b i = g.successor? b i ∨
      (g.successor? b i = some loop.header ∧ h.successor? b i = some first) := by
  have hblive := hw.isLive_of_reaches hb
  have htail := hw.isLive_of_reaches (hp.natural.reaches hp.tail_mem)
  obtain ⟨stay, hstayMem, hstay⟩ := hp.stay
  rcases hr.successor?_eq b i with heq | ⟨hshare, rfl, heq, _⟩
  · exact .inl (by rw [heq, (he.sameCode b hblive).successor])
  · have hshare := hshare.resolve_left (ne_tail_of_notMem hp hout)
    have hto := successor?_of_sharesRecord he htail hblive hshare shape.inLoopSlot
    rw [hstay] at hto
    have hedge : g.flow.Edge b stay := hw.edge_iff.2 (mem_successors_of_successor? hto)
    exact .inr ⟨by rw [hto, hp.natural.edge_into hb hedge hout hstayMem], heq⟩

end part

/-- In partial unrolling the slot of the tail that stays in the loop is led elsewhere. -/
theorem unrolled_part (hw : g.WellFormed)
    (hp : g.LoopParts loop preHeader shape.tail shape.next shape.inLoopSlot)
    (hheader : shape.header = loop.header) (hpart : shape.isFull = false) (he : Enlarged g k)
    (hfirst : k.isLive first = true) (hchain : Chain g loop shape k n first) :
    ∃ h, k.setSuccessor shape.tail shape.inLoopSlot first = .ok h ∧
      Unrolled g loop shape n first h := by
  have hkw := he.sound.wellFormed
  have htail : g.isLive shape.tail = true :=
    hw.isLive_of_reaches (hp.natural.reaches hp.tail_mem)
  have hsame := he.sameCode shape.tail htail
  obtain ⟨stay, _, hstay⟩ := hp.stay
  obtain ⟨h, hok, hr⟩ :=
    setSuccessor_ok hkw ((hsame.successor shape.inLoopSlot).trans hstay) first
  refine ⟨h, hok,
    { sound := hr.sound he.sound hfirst
      unlinked := ?unlinked
      chain := ?chain
      original := ?original
      visit := ?visit
      steps := ?steps
      successor := ?successor
      slot := ?slot
      entry_pad := ?entry_pad }⟩
  case unlinked =>
    intro hu hform
    exact hr.toRetargeted.unlinked (he.unlinked (hu (by rw [← he.form, ← hr.form, hform])))
  case chain =>
    refine hchain.mono hkw fun d hd hlive => ?_
    obtain ⟨other, hother⟩ := isLive_iff.1 htail
    have hdtail : d ≠ shape.tail :=
      Nat.ne_of_gt (Nat.lt_of_lt_of_le (lt_size_of_block? hother) hd)
    exact hr.toRetargeted.sameCode hlive
      (hr.apart d hdtail fun hshare => he.owned d shape.tail hd hdtail.symm hshare.symm)
  case original =>
    exact generation_original hw hp
      (fun b hb hne => sameCode_member_redirected hw hp he hr hb hne)
      (tailLeads_redirected hpart hw hp hkw hsame.isLive (twin_of_sameCode hw hsame) hr)
      (by rw [hr.toRetargeted.isLive_eq, hsame.isLive])
  case visit =>
    intro b hb _ store
    have hs := he.sameCode b (hw.isLive_of_reaches hb)
    rw [visit_retargeted hkw hr.toRetargeted hs.isLive, visit_sameCode hw hs]
  case steps =>
    intro b hb _
    have hs := he.sameCode b (hw.isLive_of_reaches hb)
    rw [stepCount?_retargeted hr.toRetargeted, stepCount?_sameCode hs]
  case successor =>
    intro b hb hout slot t ht
    rcases successor?_outside_redirected hw hp he hr hb hout slot with heq | ⟨hto, heq⟩
    · exact .inl (by rw [heq, ht])
    · rw [ht] at hto
      exact .inr ⟨hpart, (Option.some.inj hto).trans hheader.symm, heq⟩
  case slot =>
    intro b hb hout slot t' ht'
    rcases successor?_outside_redirected hw hp he hr hb hout slot with heq | ⟨hto, _⟩
    · exact ⟨t', by rw [← heq, ht']⟩
    · exact ⟨_, hto⟩
  case entry_pad =>
    intro block hblock
    obtain ⟨⟨old, new, hold, hnew, _, hpad⟩, _⟩ := he.sameCode entry hw.entry_live
    rw [hr.toRetargeted.block?_eq, hnew] at hblock
    obtain rfl := Option.some.inj hblock
    exact ⟨old, hold, hpad.symm⟩

/-- Making the copies and leading the tail of the loop to them succeeds. -/
theorem exists_unrolled (hs : g.Sound) (hr : Region g loop.blocks shape.tail)
    (hp : g.LoopParts loop preHeader shape.tail shape.next shape.inLoopSlot)
    (hheader : shape.header = loop.header) (config : UnrollConfig) :
    ∃ first s h, shape.copyBodies (shape.extraCopies config)
        (if shape.isFull then shape.next else shape.header) { graph := g } = .ok first s ∧
      (if shape.isFull then s.graph.convertToJump shape.tail first
        else s.graph.setSuccessor shape.tail shape.inLoopSlot first) = .ok h ∧
      Unrolled g loop shape (shape.extraCopies config) first h := by
  have hw := hs.wellFormed
  have hlive : g.isLive (if shape.isFull then shape.next else shape.header) = true := by
    split
    · exact hw.isLive_successor hp.exit
    · rw [hheader]
      exact hw.isLive_of_reaches hp.natural.header_reaches
  obtain ⟨first, s, hok, he, hfirst, hchain⟩ := copyBodies_ok (s := { graph := g }) hr hp hheader
    (shape.extraCopies config) (.refl hs) hlive .nil
  rw [Nat.zero_add] at hchain
  cases hfull : shape.isFull with
  | true =>
    obtain ⟨h, hedit, hunrolled⟩ := unrolled_full hw hp hfull he hfirst hchain
    exact ⟨first, s, h, by simpa [hfull] using hok, by simpa using hedit, hunrolled⟩
  | false =>
    obtain ⟨h, hedit, hunrolled⟩ := unrolled_part hw hp hheader hfull he hfirst hchain
    exact ⟨first, s, h, by simpa [hfull] using hok, by simpa using hedit, hunrolled⟩

/-- Then the session is cleaned up. -/
theorem unrollLoop_of_ok {config : UnrollConfig} {s : Session}
    (hcopies : shape.copyBodies (shape.extraCopies config)
      (if shape.isFull then shape.next else shape.header) { graph := g } = .ok first s)
    (hedit : (if shape.isFull then s.graph.convertToJump shape.tail first
      else s.graph.setSuccessor shape.tail shape.inLoopSlot first) = .ok h) (hh : h.WellFormed) :
    Graph.unrollLoop config shape g =
      .ok (onto s h).finalize.1 (onto s h).finalize.2.graph := by
  have htry : Cloning.tryGraph .violation (fun g =>
      (if shape.isFull then g.convertToJump shape.tail first
        else g.setSuccessor shape.tail shape.inLoopSlot first).map fun g => ((), g)) s =
        .ok () (onto s h) := by
    simp only [tryGraph, hedit]
    rfl
  have hunroll : shape.unroll config { graph := g } =
      .ok (onto s h).finalize.1 (onto s h).finalize.2 := by
    rw [LoopShape.unroll, bind_ok hcopies, bind_ok htry]
    exact finalize_eq_ok hh
  rw [Graph.unrollLoop, hunroll]

/-- **Unrolling a loop** succeeds, and leaves the loop with its copies, cleaned up. -/
theorem unrollLoop_ok (hs : g.Sound) (hu : g.form = .loadStore → g.Unlinked)
    (hr : Region g loop.blocks shape.tail)
    (hp : g.LoopParts loop preHeader shape.tail shape.next shape.inLoopSlot)
    (hheader : shape.header = loop.header) (config : UnrollConfig) :
    ∃ removed h k first, Graph.unrollLoop config shape g = .ok removed k ∧
      Unrolled g loop shape (shape.extraCopies config) first h ∧ CleanedUp h k := by
  obtain ⟨first, s, h, hcopies, hedit, hunrolled⟩ := exists_unrolled hs hr hp hheader config
  have hclean := cleanedUp_finalize (s := onto s h) hunrolled.sound (hunrolled.unlinked hu)
  exact ⟨_, h, _, first, unrollLoop_of_ok hcopies hedit hunrolled.sound.wellFormed, hunrolled,
    hclean⟩

end Unroller
