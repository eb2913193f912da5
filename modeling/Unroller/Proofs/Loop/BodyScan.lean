import Mathlib.Tactic
import Unroller.Proofs.Loop.Lockstep

/-!
# Giving up on a large body

The body scan gives up once it has counted more nodes than a fully unrolled loop or a numeric one
may have.  Compare it with the scan of the same blocks that always goes to the end: the first comes
to an end exactly when the second does with a body within the limit, and then both have counted the
same.

* `StopsAbove`: a step with a limit beside the step without; `StopsAbove.foldlM`: whole lists of
  them.
* `bodyStats_eq_ok_iff`: which bodies the scan measures.
* `stopping_exact`: what giving up does to the decision; nothing, unless a body that is unrolled in
  part may be larger than the limit of the scan.
* `openLoop_oversized`: settings under which it may, and a loop that is refused for it.
-/

namespace Unroller

/-! ## Scans with and without a limit -/

/-- The step `f` does what `f'` does as long as no more than `limit` nodes are counted, and fails
beyond; `f'` only counts upwards. -/
structure StopsAbove {α : Type} (limit : Nat) (f f' : BodyScan → α → Except Refusal BodyScan) :
    Prop where
  ok_iff : ∀ s x t, s.stats.material ≤ limit →
    (f s x = .ok t ↔ f' s x = .ok t ∧ t.stats.material ≤ limit)
  le : ∀ s x t, f' s x = .ok t → s.stats.material ≤ t.stats.material

namespace StopsAbove

variable {α : Type} {limit : Nat} {f f' : BodyScan → α → Except Refusal BodyScan}

theorem le_foldlM (h : StopsAbove limit f f') (xs : List α) {s t : BodyScan}
    (ht : xs.foldlM f' s = .ok t) : s.stats.material ≤ t.stats.material := by
  induction xs generalizing s with
  | nil =>
    obtain rfl := Except.ok.inj ht
    exact Nat.le_refl _
  | cons x xs ih =>
    rw [List.foldlM_cons] at ht
    obtain ⟨u, hu, ht⟩ := bind_eq_ok ht
    exact (h.le s x u hu).trans (ih ht)

/-- **A list of steps.**  What was counted on the way is within the limit when the sum is. -/
theorem foldlM (h : StopsAbove limit f f') :
    StopsAbove limit (fun s xs => xs.foldlM f s) (fun s (xs : List α) => xs.foldlM f' s) := by
  refine ⟨fun s xs t hs => ?_, fun s xs t ht => h.le_foldlM xs ht⟩
  induction xs generalizing s with
  | nil =>
    constructor
    · intro ht
      obtain rfl := Except.ok.inj ht
      exact ⟨rfl, hs⟩
    · exact fun ht => ht.1
  | cons x xs ih =>
    simp only [List.foldlM_cons]
    constructor
    · intro ht
      obtain ⟨u, hu, ht⟩ := bind_eq_ok ht
      obtain ⟨hu, hle⟩ := (h.ok_iff s x u hs).1 hu
      rw [hu]
      exact (ih u hle).1 ht
    · rintro ⟨ht, hle⟩
      obtain ⟨u, hu, ht⟩ := bind_eq_ok ht
      have hbound : u.stats.material ≤ limit := (h.le_foldlM xs ht).trans hle
      rw [(h.ok_iff s x u hs).2 ⟨hu, hbound⟩]
      exact (ih u hbound).2 ⟨ht, hle⟩

end StopsAbove

namespace BodyScan

variable {g : Graph} {limit : Nat}

theorem stopsAbove_node (g : Graph) (limit : Nat) :
    StopsAbove limit (node g (some limit)) (node g none) := by
  constructor
  · intro s n t hs
    simp only [node]
    split
    · simp
    rename_i m _
    split
    · simp
    split
    · simp
    · simp
    split
    case isTrue hstop =>
      -- more than the limit has been counted
      simp only [Bool.and_eq_true, decide_eq_true_eq] at hstop
      simp only [reduceCtorEq, false_iff, not_and, Except.ok.injEq]
      rintro rfl
      exact Nat.not_le.2 hstop.2
    case isFalse hgo =>
      simp only [Except.ok.injEq]
      refine ⟨fun ht => ⟨ht, ?_⟩, fun ht => ht.1⟩
      subst ht
      by_cases hm : g.isMaterial m = true
      · simpa [hm] using hgo
      · simpa [count, hm] using hs
  · intro s n t ht
    simp only [node] at ht
    split at ht
    · cases ht
    split at ht
    · cases ht
    split at ht
    · cases ht
    · cases ht
    obtain rfl := Except.ok.inj ht
    exact Nat.le_add_right _ _

theorem stopsAbove_block (g : Graph) (limit : Nat) :
    StopsAbove limit (block g (some limit)) (block g none) := by
  have hnodes := (stopsAbove_node g limit).foldlM
  constructor
  · intro s b t hs
    simp only [block]
    split
    · simp
    split
    · constructor
      · intro ht
        obtain rfl := Except.ok.inj ht
        exact ⟨rfl, hs⟩
      · exact fun ht => ht.1
    split
    · simp
    · exact hnodes.ok_iff _ _ t hs
  · intro s b t ht
    simp only [block] at ht
    split at ht
    · cases ht
    split at ht
    · obtain rfl := Except.ok.inj ht
      exact Nat.le_refl _
    split at ht
    · cases ht
    · exact hnodes.le { s with stats.blocks := s.stats.blocks + 1 } _ t ht

theorem measure_eq_ok {limit : Option Nat} {blocks : List BlockId} {stats : BodyStats} :
    measure g limit blocks = .ok stats ↔
      ∃ t, blocks.foldlM (block g limit) {} = .ok t ∧ t.stats = stats := by
  rw [measure]
  cases blocks.foldlM (block g limit) {} with
  | error r => simp [Except.map]
  | ok t => simp [Except.map]

/-- **Measuring with a limit.**  Bodies within the limit are measured as without one, and no
others. -/
theorem measure_eq_ok_iff {blocks : List BlockId} {stats : BodyStats} :
    measure g (some limit) blocks = .ok stats ↔
      measure g none blocks = .ok stats ∧ stats.material ≤ limit := by
  have hscan := (stopsAbove_block g limit).foldlM.ok_iff {} blocks
  rw [measure_eq_ok, measure_eq_ok]
  constructor
  · rintro ⟨t, ht, rfl⟩
    obtain ⟨ht, hle⟩ := (hscan t (Nat.zero_le _)).1 ht
    exact ⟨⟨t, ht, rfl⟩, hle⟩
  · rintro ⟨⟨t, ht, rfl⟩, hle⟩
    exact ⟨t, (hscan t (Nat.zero_le _)).2 ⟨ht, hle⟩, rfl⟩

end BodyScan

/-! ## The decision -/

variable {g : Graph} {loop : NaturalLoop} {config : UnrollConfig} {full : Bool} {stats : BodyStats}

/-- What the body scan measures: bodies that do not exceed both of its limits. -/
theorem Graph.bodyStats_eq_ok_iff :
    g.bodyStats loop config = .ok stats ↔ BodyScan.measure g none loop.blocks = .ok stats ∧
      stats.material ≤ max config.maxFullBodySize config.maxNumericSize :=
  BodyScan.measure_eq_ok_iff

/-- A body that pays is within the limit for its sort of unrolling, or below that for numeric
loops. -/
theorem BodyStats.material_le_of_profitable (h : stats.profitable full config = .ok ()) :
    stats.material ≤ max (config.bodySizeLimit full) config.maxNumericSize := by
  rw [profitable] at h
  split at h
  · cases h
  split at h
  case isTrue hhot =>
    simp only [isNumericHot, Bool.and_eq_true, decide_eq_true_eq] at hhot
    exact hhot.2.le.trans (Nat.le_max_right _ _)
  split at h
  · cases h
  case isFalse hsize => exact (Nat.le_of_not_lt hsize).trans (Nat.le_max_left _ _)

/-- **What giving up on large bodies does to the decision.**  The scan that gives up and the one
that goes to the end lead to the same measurements and the same decision on every loop, for a full
unroll under all settings, and for a partial one when its limit is not above the two that the scan
looks at. Beyond, the scan refuses just the bodies that exceed both. -/
theorem stopping_exact (g : Graph) (loop : NaturalLoop) (config : UnrollConfig) (full : Bool)
    (stats : BodyStats) :
    (g.bodyStats loop config = .ok stats ∧ stats.profitable full config = .ok () ↔
      (BodyScan.measure g none loop.blocks = .ok stats ∧ stats.profitable full config = .ok ()) ∧
        stats.material ≤ max config.maxFullBodySize config.maxNumericSize) ∧
    (full = true ∨ config.maxPartialBodySize ≤ max config.maxFullBodySize config.maxNumericSize →
      (g.bodyStats loop config = .ok stats ∧ stats.profitable full config = .ok () ↔
        BodyScan.measure g none loop.blocks = .ok stats ∧
          stats.profitable full config = .ok ())) := by
  have hdecision : g.bodyStats loop config = .ok stats ∧ stats.profitable full config = .ok () ↔
      (BodyScan.measure g none loop.blocks = .ok stats ∧ stats.profitable full config = .ok ()) ∧
        stats.material ≤ max config.maxFullBodySize config.maxNumericSize := by
    rw [Graph.bodyStats_eq_ok_iff, and_right_comm]
  refine ⟨hdecision, fun hmode => hdecision.trans (and_iff_left_of_imp ?_)⟩
  rintro ⟨_, hpays⟩
  have hlimit : config.bodySizeLimit full ≤ max config.maxFullBodySize config.maxNumericSize := by
    rcases hmode with rfl | hpartial
    · exact Nat.le_max_left _ _
    · cases full
      · exact hpartial
      · exact Nat.le_max_left _ _
  have hsize := BodyStats.material_le_of_profitable hpays
  omega

theorem stopping_exact_openLoop :
    (Builder.countingLoop false).graph.threadLocals.bodyStats countingBody {} =
        .ok openShape.body ∧
      openShape.body.profitable false {} = .ok () := by
  refine ((stopping_exact _ countingBody {} false openShape.body).2 (.inr (by decide))).2 ⟨?_, ?_⟩
  · decide +kernel
  · decide +kernel

/-! ## A limit for partial unrolling above the others -/

/-- Settings that unroll larger bodies in part than in full. -/
def partialFirst : UnrollConfig := { maxFullBodySize := 4, maxNumericSize := 4 }

/-- **A body can be refused for a limit that does not apply to it.**  Under `partialFirst` the loop
of unknown trip count may have up to 60 nodes that count and has 7, but the scan gives up at the
fifth. -/
theorem openLoop_oversized :
    Finished (Builder.countingLoop false).graph.threadLocals ∧
      countingBody ∈ (Builder.countingLoop false).graph.threadLocals.loopForest.loops ∧
      (Builder.countingLoop false).graph.threadLocals.bodyStats countingBody partialFirst =
        .error (.rejected (.bodyTooLarge 5 4)) ∧
      BodyScan.measure (Builder.countingLoop false).graph.threadLocals none countingBody.blocks =
        .ok openShape.body ∧
      openShape.body.profitable false partialFirst = .ok () ∧
      ¬ ((∃ stats, (Builder.countingLoop false).graph.threadLocals.bodyStats countingBody
            partialFirst = .ok stats ∧ stats.profitable false partialFirst = .ok ()) ↔
        ∃ stats, BodyScan.measure (Builder.countingLoop false).graph.threadLocals none
            countingBody.blocks = .ok stats ∧ stats.profitable false partialFirst = .ok ()) := by
  have hstopped : (Builder.countingLoop false).graph.threadLocals.bodyStats countingBody
      partialFirst = .error (.rejected (.bodyTooLarge 5 4)) := by cbv
  have hmeasured : BodyScan.measure (Builder.countingLoop false).graph.threadLocals none
      countingBody.blocks = .ok openShape.body := by decide +kernel
  have hpays : openShape.body.profitable false partialFirst = .ok () := by decide +kernel
  refine ⟨finished_countingLoop false, countingBody_mem false, hstopped, hmeasured, hpays, ?_⟩
  intro hiff
  obtain ⟨stats, hok, _⟩ := hiff.2 ⟨openShape.body, hmeasured, hpays⟩
  rw [hstopped] at hok
  cases hok

end Unroller
