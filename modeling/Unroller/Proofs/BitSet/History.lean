import Mathlib.Data.Finset.Card
import Mathlib.Tactic
import Unroller.Proofs.BitSet.Enumeration

/-!
# Packed sets are finite sets of numbers

A history of operations is run twice, on a packed set and on a finite set.

* `Represents`: a packed set has the members of a finite set.
* `Represents.apply`: an operation gives the same reply on both and leaves such sets again.
* `Represents.run`: so does a history of operations.
* `operations_exact`: after every history, all that can be asked of the packed set is answered as
  for the finite set.
-/

namespace Unroller.BitSet

variable {s t : BitSet} {S T : Finset Nat}

/-! ## Histories -/

/-- An operation that changes a set. -/
inductive Op where
  | insert (i : Nat)
  | erase (i : Nat)
  | clear
deriving DecidableEq

/-- What a history of operations comes to. -/
structure Outcome (σ : Type) where
  /-- The reply to each operation; only an insertion has one. -/
  replies : List (Option Bool)
  /-- The set after the last operation. -/
  final : σ

/-- An operation on a packed set. -/
def Op.apply (s : BitSet) : Op → Option Bool × BitSet
  | .insert i => (some (s.insert i).1, (s.insert i).2)
  | .erase i => (none, s.erase i)
  | .clear => (none, s.clear)

/-- An operation on a finite set; an insertion replies whether the number was absent. -/
def Op.applyPlain (S : Finset Nat) : Op → Option Bool × Finset Nat
  | .insert i => (some (decide (i ∉ S)), Insert.insert i S)
  | .erase i => (none, S.erase i)
  | .clear => (none, ∅)

/-- Runs a history of operations. -/
def run {σ : Type} (apply : σ → Op → Option Bool × σ) (state : σ) : List Op → Outcome σ
  | [] => ⟨[], state⟩
  | op :: ops =>
    let now := apply state op
    let later := run apply now.2 ops
    ⟨now.1 :: later.replies, later.final⟩

/-- A history of operations on an empty packed set with room for the numbers below `capacity`. -/
def packed (capacity : Nat) (ops : List Op) : Outcome BitSet :=
  run Op.apply (withCapacity capacity) ops

/-- A history of operations on the empty finite set. -/
def plain (ops : List Op) : Outcome (Finset Nat) := run Op.applyPlain ∅ ops

/-! ## The two sets -/

/-- A packed set has the members of a finite set. -/
def Represents (s : BitSet) (S : Finset Nat) : Prop := ∀ i, s.contains i = true ↔ i ∈ S

namespace Represents

theorem withCapacity (capacity : Nat) : Represents (withCapacity capacity) ∅ := fun i => by
  simp [contains_withCapacity]

/-- **An operation** gives the same reply on both sets and leaves the same members in them. -/
theorem apply (h : Represents s S) (op : Op) :
    (op.apply s).1 = (op.applyPlain S).1 ∧ Represents (op.apply s).2 (op.applyPlain S).2 := by
  cases op with
  | insert i =>
    refine ⟨?_, fun j => ?_⟩
    · rw [Op.apply, Op.applyPlain, fst_insert, Option.some_inj, Bool.eq_iff_iff,
        Bool.not_eq_true', ← Bool.not_eq_true, h i, decide_eq_true_eq]
    · rw [Op.apply, Op.applyPlain, contains_insert, Bool.or_eq_true, decide_eq_true_eq, h j,
        Finset.mem_insert, or_comm]
  | erase i =>
    refine ⟨rfl, fun j => ?_⟩
    rw [Op.apply, Op.applyPlain, contains_erase, Bool.and_eq_true, decide_eq_true_eq, h j,
      Finset.mem_erase, and_comm]
  | clear =>
    refine ⟨rfl, fun j => ?_⟩
    simp [Op.apply, Op.applyPlain, contains_clear]

/-- **A history** gives the same replies on both sets and leaves the same members in them. -/
theorem run (h : Represents s S) (ops : List Op) :
    (run Op.apply s ops).replies = (run Op.applyPlain S ops).replies ∧
      Represents (run Op.apply s ops).final (run Op.applyPlain S ops).final := by
  induction ops generalizing s S with
  | nil => exact ⟨rfl, h⟩
  | cons op ops ih =>
    obtain ⟨hreply, hnext⟩ := h.apply op
    obtain ⟨hreplies, hfinal⟩ := ih hnext
    exact ⟨congrArg₂ List.cons hreply hreplies, hfinal⟩

theorem mem_members (h : Represents s S) {i : Nat} : i ∈ s.members ↔ i ∈ S :=
  BitSet.mem_members.trans (h i)

theorem count_eq_card (h : Represents s S) : s.count = S.card := by
  have hset : s.members.toFinset = S := by
    ext i
    rw [List.mem_toFinset, h.mem_members]
  rw [count_eq_length, ← hset, List.toFinset_card_of_nodup (sortedLT_members s).pairwise.nodup]

theorem isEmpty_iff (h : Represents s S) : s.isEmpty = true ↔ S = ∅ := by
  rw [BitSet.isEmpty_iff, Finset.eq_empty_iff_forall_notMem]
  exact forall_congr' fun i => by rw [← h i, Bool.not_eq_true]

theorem eq_iff (hs : Represents s S) (ht : Represents t T) :
    s = t ↔ s.words.size = t.words.size ∧ S = T := by
  rw [BitSet.eq_iff, Finset.ext_iff]
  refine and_congr_right' (forall_congr' fun i => ?_)
  rw [← hs i, ← ht i, Bool.eq_iff_iff]

end Represents

/-- **A packed set is a finite set of numbers.**  After every history of operations on an empty set
of any capacity, each insertion has replied whether the number was absent; the members are those of
the finite set after the same history, listed in strictly ascending order and counted one by one;
the set is reported empty exactly when it has none; and it equals a set of another history, of which
only the words are compared, exactly when both have equally many words and the same members. -/
theorem operations_exact (capacity : Nat) (ops : List Op) :
    (packed capacity ops).replies = (plain ops).replies ∧
    (∀ i, (packed capacity ops).final.contains i = true ↔ i ∈ (plain ops).final) ∧
    (packed capacity ops).final.members.Pairwise (· < ·) ∧
    (∀ i, i ∈ (packed capacity ops).final.members ↔ i ∈ (plain ops).final) ∧
    (packed capacity ops).final.count = (plain ops).final.card ∧
    ((packed capacity ops).final.isEmpty = true ↔ (plain ops).final = ∅) ∧
    ∀ (capacity' : Nat) (ops' : List Op),
      (packed capacity ops).final = (packed capacity' ops').final ↔
        (packed capacity ops).final.words.size = (packed capacity' ops').final.words.size ∧
          (plain ops).final = (plain ops').final := by
  obtain ⟨hreplies, hfinal⟩ := (Represents.withCapacity capacity).run ops
  refine ⟨hreplies, hfinal, (sortedLT_members _).pairwise, fun i => hfinal.mem_members,
    hfinal.count_eq_card, hfinal.isEmpty_iff, fun capacity' ops' => ?_⟩
  exact hfinal.eq_iff ((Represents.withCapacity capacity').run ops').2

end Unroller.BitSet
