import Mathlib.Tactic
import Unroller.Proofs.Loop.Course
import Unroller.Proofs.Loop.Unrolling

/-!
# The graph after unrolling

Unrolling an accepted loop leaves the laps of a course, if no two blocks share the record of their
targets: only then does leading the tail elsewhere leave all other blocks alone.

* `stitched_edit`: what leading the tail of the loop to the copies does.
* `lap_of_edit`, `course_of_laps`: then the loop itself is the first of the laps.
* `Repeated`, `LaidOut`: the laps, and what is live.
* `unrollLoop_laidOut`: unrolling succeeds, and leaves the laps and no unreachable block.
* `LaidOut.isLive_eq_false_iff`, `LaidOut.mem_removed`: the blocks removed.
-/

namespace Unroller

open Unroller.Graph Machine Cloning

variable {g h k : Graph} {loop : NaturalLoop} {shape : LoopShape} {first b c : BlockId} {n : Nat}
  {lap : Nat → BlockId → BlockId} {config : UnrollConfig} {removed : List BlockId}

/-! ## The tail of the loop -/

/-- **Leading the tail to the copies** ends the first lap, and changes no other block. -/
theorem stitched_edit (hu : g.Unrollable loop shape) (he : Enlarged g k) (hsep : k.Separate)
    (hedit : (if shape.isFull then k.convertToJump shape.tail first
      else k.setSuccessor shape.tail shape.inLoopSlot first) = .ok h) :
    Stitched g shape first h shape.tail ∧ h.isLive shape.tail = true ∧
      ∀ d, k.isLive d = true → d ≠ shape.tail → SameCode k h d := by
  have hw := hu.wellFormed
  have hkw := he.sound.wellFormed
  have hsame := he.sameCode shape.tail (hu.region.live _ hu.turn.tail_mem)
  cases hfull : shape.isFull with
  | true =>
    obtain ⟨t, hsecond⟩ := hu.parts.exists_second
    obtain ⟨block, m, last, hb, hterm, hkind⟩ :=
      not_jump_of_second hkw ((hsame.successor 1).trans hsecond)
    obtain ⟨h', kept, jump, hok, hcut⟩ := convertToJump_ok hb hterm hkind first
    obtain rfl : h' = h := by simpa [hfull, hok] using hedit
    exact ⟨stitched_cut hfull hkw hb hcut fun store => runBody_sameCode hw hsame store,
      isLive_of_block? hcut.block?_self, fun d hd hne => hcut.sameCode hkw hd hne⟩
  | false =>
    obtain ⟨stay, _, hstay⟩ := hu.parts.stay
    obtain ⟨h', hok, hr⟩ :=
      setSuccessor_ok hkw ((hsame.successor shape.inLoopSlot).trans hstay) first
    obtain rfl : h' = h := by simpa [hfull, hok] using hedit
    refine ⟨stitched_of_part hfull (tailLeads_redirected hfull hw hu.parts hkw hsame.isLive
      (twin_of_sameCode hw hsame) hr), ?_, fun d hd hne => ?_⟩
    · rw [hr.toRetargeted.isLive_eq, hsame.isLive]
    · exact hr.toRetargeted.sameCode hd (hr.apart d hne (hsep.not_sharesRecord hne))

section course

variable (hu : g.Unrollable loop shape) (he : Enlarged g k) (hlaps : Laps g loop shape n lap k)
  (htail : Stitched g shape (shape.entrance n lap 0) h shape.tail)
  (hlive : h.isLive shape.tail = true)
  (hs : ∀ d, k.isLive d = true → d ≠ shape.tail → SameCode k h d)

include hu he hs

omit hu in
theorem sameCode_of_edit (hb : g.isLive b = true) (hne : b ≠ shape.tail) : SameCode g h b :=
  (he.sameCode b hb).trans (hs b (he.sameCode b hb).isLive hne)

include htail hlive in
/-- **The loop itself is a lap** when its tail leads to the copies. -/
theorem lap_of_edit : Lap g loop shape id (shape.entrance n lap 0) h := by
  have hsame : ∀ b ∈ g.turn loop, b ≠ shape.tail → SameCode g h b := fun b hb hne =>
    sameCode_of_edit he hs (hu.region.live b hb) hne
  refine ⟨fun b hb => ?_, fun b hb hne => ?_, fun b hb hne slot => ?_, htail⟩
  · by_cases hne : b = shape.tail
    · exact hne ▸ hlive
    · exact (hsame b hb hne).isLive
  · exact visit_sameCode hu.wellFormed (hsame b hb hne)
  · show h.successor? b slot = _
    rw [(hsame b hb hne).successor]
    exact Option.map_id_apply.symm

include htail hlive hlaps in
/-- **The loop and its copies** make a course. -/
theorem course_of_laps (hh : h.WellFormed) : Course g loop shape (n + 1) (ahead id lap) h where
  wellFormed := hh
  pos := Nat.succ_pos n
  first := fun _ => rfl
  each := by
    intro i hi
    rw [entrance_ahead_succ]
    cases i with
    | zero => exact lap_of_edit hu he htail hlive hs
    | succ i =>
      have hi := Nat.lt_of_succ_lt_succ hi
      refine (hlaps.each i hi).mono he.sound.wellFormed hu.turn fun b hb => ?_
      refine hs _ ((hlaps.each i hi).live b hb) (Nat.ne_of_gt ?_)
      exact Nat.lt_of_lt_of_le (hu.lt_size hu.turn.tail_mem) (hlaps.mem_copies hi hb).1
  outside := fun b hb => sameCode_of_edit he hs (hu.wellFormed.isLive_of_reaches hb.1)
    (ne_tail_of_notMem hu.parts hb.2)
  apart := by
    -- blocks of the loop are older than the copies
    intro i hi j hj b hb c hc heq
    cases i <;> cases j
    · exact ⟨rfl, heq⟩
    · have hle := (hlaps.mem_copies (Nat.lt_of_succ_lt_succ hj) hc).1
      exact absurd heq (Nat.ne_of_lt (Nat.lt_of_lt_of_le (hu.lt_size hb) hle))
    · have hle := (hlaps.mem_copies (Nat.lt_of_succ_lt_succ hi) hb).1
      exact absurd heq (Nat.ne_of_gt (Nat.lt_of_lt_of_le (hu.lt_size hc) hle))
    · rw [Nat.add_right_cancel_iff]
      exact hlaps.apart (Nat.lt_of_succ_lt_succ hi) (Nat.lt_of_succ_lt_succ hj) hb hc heq
  away := by
    intro i hi b hb hout
    cases i with
    | zero => exact hout.2 (mem_turn.1 hb).1
    | succ i =>
      have hle := (hlaps.mem_copies (Nat.lt_of_succ_lt_succ hi) hb).1
      obtain ⟨block, hblock⟩ := isLive_iff.1 (hu.wellFormed.isLive_of_reaches hout.1)
      exact absurd (lt_size_of_block? hblock) (Nat.not_lt.2 hle)

end course

/-! ## The whole of it -/

/-- In the graph `k` a loop of `g` is repeated `count` times, first on its own blocks; all blocks
added are those of the further laps. -/
structure Repeated (g : Graph) (loop : NaturalLoop) (shape : LoopShape) (count : Nat)
    (lap : Nat → BlockId → BlockId) (k : Graph) : Prop where
  pos : 0 < count
  first : ∀ b, lap 0 b = b
  size : k.blocks.size = g.blocks.size + (count - 1) * (g.turn loop).length
  copies : ((List.range (count - 1)).flatMap fun i => (g.turn loop).map (lap (i + 1))).Perm
    (List.range' g.blocks.size ((count - 1) * (g.turn loop).length))
  live : ∀ i < count, ∀ b ∈ g.turn loop, k.isLive (lap i b) = true
  visit : ∀ i < count, ∀ b ∈ g.turn loop, b ≠ shape.tail → ∀ store,
    visit k (lap i b) store = visit g b store
  successor : ∀ i < count, ∀ b ∈ g.turn loop, b ≠ shape.tail → ∀ slot,
    k.successor? (lap i b) slot = (g.successor? b slot).map (lap i)

/-- The graph `k` is sound, its analyses are its own, and every live block of it is reached, outside
the loop of `g` or on one of `count` laps. -/
structure LaidOut (g : Graph) (loop : NaturalLoop) (shape : LoopShape) (count : Nat)
    (lap : Nat → BlockId → BlockId) (k : Graph) : Prop
    extends Repeated g loop shape count lap k where
  course : Course g loop shape count lap k
  sound : k.Sound
  analyzed : k.Analyzed
  live_iff : ∀ b, k.isLive b = true ↔ g.Outside loop b ∨ OnCourse g loop count lap b

/-- Records keep their owners while copies are made. -/
theorem separate_copyBodies {count : Nat} {following : BlockId} {s : Session} (hsep : g.Separate)
    (hok : shape.copyBodies count following { graph := g } = .ok first s) : s.graph.Separate := by
  have honward := (behaves_copyBodies shape count following (s := { graph := g })
    ⟨hsep, by simp⟩).onward
  rw [hok] at honward
  exact honward.working.separate

/-- **Unrolling an accepted loop** lays its laps out. -/
theorem unrollLoop_laidOut {count : Nat} (hg : Finished g) (howner : g.SingleOwner)
    (hloop : loop ∈ g.loopForest.loops) (ha : g.Accepted config loop shape)
    (hcount : shape.extraCopies config + 1 = count) :
    ∃ removed k lap, Graph.unrollLoop config shape g = .ok removed k ∧
      LaidOut g loop shape count lap k := by
  obtain ⟨hs, hg, hform⟩ := hg.sound_analyzed
  have hu := unrollable_of_accepted hs hg hloop ha
  obtain ⟨first, s, h, hcopies, hedit, hunrolled⟩ := exists_unrolled hs
    (region_of_accepted hs hg hloop ha) hu.parts hu.header config
  have hlive : g.isLive (if shape.isFull then shape.next else shape.header) = true := by
    split
    · exact hu.wellFormed.isLive_of_reaches hu.outside_next.1
    · exact hu.header ▸ hu.region.live _ hu.turn.header_mem
  obtain ⟨lap, hlaps, hfirst, he, _⟩ := laps_of_copyBodies (s := { graph := g }) hu (.refl hs) hlive
    (laps_zero fun _ => id) (by simp [LoopShape.entrance]) hcopies
  rw [Nat.zero_add] at hlaps hfirst
  subst hfirst hcount
  obtain ⟨htail, htlive, hsame⟩ := stitched_edit hu he
    (separate_copyBodies (hu.wellFormed.separate howner) hcopies) hedit
  have hcourse := course_of_laps hu he hlaps htail htlive hsame hunrolled.sound.wellFormed
  have hclean := cleanedUp_finalize (s := onto s h) hunrolled.sound
    (hunrolled.unlinked (by simp [hform]))
  have hcourse := hcourse.of_sameCode hu hclean.sound.wellFormed hclean.sameCode
  refine ⟨_, _, ahead id lap, unrollLoop_of_ok hcopies hedit hunrolled.sound.wellFormed,
    ⟨⟨hcourse.pos, hcourse.first, ?_, hlaps.copies, fun i hi => (hcourse.each i hi).live,
      fun i hi => (hcourse.each i hi).visit, fun i hi => (hcourse.each i hi).successor⟩,
      hcourse, hclean.sound, hclean.analyzed, fun b => ?_⟩⟩
  · rw [size_finalize, Nat.add_sub_cancel, ← hlaps.size]
    exact size_eq_of_slots (slots_edit hedit)
  · rw [← hcourse.reaches_iff hu]
    exact ⟨hclean.live b, hclean.sound.wellFormed.isLive_of_reaches⟩

/-! ## Live and removed blocks -/

namespace LaidOut

variable {count : Nat} (hl : LaidOut g loop shape count lap k)

include hl

/-- Of the blocks there were before, only those of the turn itself are on the course. -/
theorem onCourse_iff (hb : g.isLive b = true) :
    OnCourse g loop count lap b ↔ b ∈ g.turn loop := by
  refine ⟨?_, fun hmem => ⟨0, hl.pos, b, hmem, (hl.first b).symm⟩⟩
  rintro ⟨i, hi, c, hc, rfl⟩
  cases i with
  | zero => rwa [hl.first]
  | succ i =>
    have hmem : lap (i + 1) c ∈
        (List.range (count - 1)).flatMap fun i => (g.turn loop).map (lap (i + 1)) :=
      List.mem_flatMap.2 ⟨i, List.mem_range.2 (Nat.lt_sub_of_add_lt hi), List.mem_map_of_mem hc⟩
    rw [hl.copies.mem_iff, List.mem_range'_1] at hmem
    obtain ⟨block, hblock⟩ := isLive_iff.1 hb
    exact absurd (lt_size_of_block? hblock) (Nat.not_lt.2 hmem.1)

/-- **What is no longer live** are the pads on the back edge and what was not reached before. -/
theorem isLive_eq_false_iff (hu : g.Unrollable loop shape) (hg : g.Analyzed)
    (hb : g.isLive b = true) :
    k.isLive b = false ↔ b ∈ g.backPads loop.header ∨ ¬ g.flow.Reaches entry b := by
  rw [← Bool.not_eq_true, hl.live_iff, hl.onCourse_iff hb, mem_turn]
  constructor
  · intro hgone
    by_cases hreach : g.flow.Reaches entry b
    · have hmem : b ∈ loop.blocks := by
        by_contra hout
        exact hgone (.inl ⟨hreach, hout⟩)
      by_contra hpads
      rw [not_or] at hpads
      exact hgone (.inr ⟨hmem, hpads.1⟩)
    · exact .inr hreach
  · rintro (hpads | hreach) (hout | hturn)
    · exact hout.2 (mem_of_mem_backPads hg hu.parts hpads)
    · exact hturn.2 hpads
    · exact hreach hout.1
    · exact hreach (hu.parts.natural.reaches hturn.1)

/-- **The blocks removed** were there before, since all blocks added are live. -/
theorem mem_removed (hg : g.Numbered) (hok : Graph.unrollLoop config shape g = .ok removed k) :
    b ∈ removed ↔ g.isLive b = true ∧ k.isLive b = false := by
  obtain ⟨slots, hremoves⟩ := removes_unrollLoop hok
  rw [hremoves.eq_slots hg, hremoves.mem_iff]
  refine ⟨fun ⟨hb, hdead⟩ => ⟨hb.resolve_right fun ⟨hle, hlt⟩ => ?_, hdead⟩,
    fun ⟨hb, hdead⟩ => ⟨.inl hb, hdead⟩⟩
  have hmem : b ∈ List.range' g.blocks.size ((count - 1) * (g.turn loop).length) :=
    List.mem_range'_1.2 ⟨hle, hl.size ▸ hlt⟩
  rw [← hl.copies.mem_iff] at hmem
  obtain ⟨i, hi, hmem⟩ := List.mem_flatMap.1 hmem
  obtain ⟨c, hc, rfl⟩ := List.mem_map.1 hmem
  have hlive := hl.live (i + 1) (Nat.add_lt_of_lt_sub (List.mem_range.1 hi)) c hc
  simp [hdead] at hlive

end LaidOut

end Unroller
