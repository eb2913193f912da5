import Mathlib.Tactic
import Unroller.Proofs.Cloning.Region
import Unroller.Proofs.Loop.Shape

/-!
# The body of an accepted loop can be copied

The body scan has looked at every node of every block that is no pad.  A verdict that it finds
recorded was reached earlier in the same scan.

* `Scan.Trusted`: the recorded verdicts are right; `trusted_checkFrom`: looking at a node keeps them
  so, and its own verdict is right.
* `measured_of_measure`: the nodes of a measured body can be copied.
* `region_of_accepted`: an accepted loop is a region.
-/

namespace Unroller

open Unroller.Graph

/-- A node whose kind does not rule out copying. -/
def Graph.MayCopy (g : Graph) (n : NodeId) : Prop :=
  ∀ node, g.node? n = some node → node.kind.cloneStrategy ≠ .unsupported

namespace Scan

variable {g : Graph} {s : Scan} {n : NodeId}

/-- Nodes with a positive verdict may be copied. -/
def Trusted (g : Graph) (s : Scan) : Prop :=
  ∀ n, s.verdicts.lookup n = some true → g.MayCopy n

theorem Trusted.record (hs : Trusted g s) {verdict : Bool} (hn : verdict = true → g.MayCopy n) :
    Trusted g (s.record n verdict) := by
  intro m hm
  rw [Scan.record, List.lookup_cons] at hm
  split at hm
  · rename_i heq
    rw [beq_iff_eq.1 heq]
    exact hn (Option.some.inj hm)
  · exact hs m hm

theorem trusted_all {test : Scan → NodeId → Except Error (Bool × Scan)} {verdict : Bool} {t : Scan}
    (htest : ∀ s n verdict t, Trusted g s → test s n = .ok (verdict, t) → Trusted g t)
    (ns : List NodeId) (hs : Trusted g s) (h : all test s ns = .ok (verdict, t)) : Trusted g t := by
  induction ns generalizing s with
  | nil =>
    obtain ⟨-, rfl⟩ := Prod.mk.inj (Except.ok.inj h)
    exact hs
  | cons n ns ih =>
    rw [all] at h
    obtain ⟨⟨first, u⟩, hfirst, h⟩ := bind_eq_ok h
    have hu := htest s n first u hs hfirst
    cases first with
    | true => exact ih hu h
    | false =>
      obtain ⟨-, rfl⟩ := Prod.mk.inj (Except.ok.inj h)
      exact hu

/-- What is left to do for a node whose verdict depends on its operands. -/
theorem trusted_operands {assertions verdict : Bool} {node : Node} {t : Scan}
    {test : Scan → NodeId → Except Error (Bool × Scan)}
    (htest : ∀ s n verdict t, Trusted g s → test s n = .ok (verdict, t) → Trusted g t)
    (hs : Trusted g s) (hn : g.MayCopy n)
    (h : (if s.visiting.contains n then
        if assertions then throw (.operandCycle n) else return (false, s)
      else do
        let (verdict, t) ← all test { s with visiting := n :: s.visiting } (g.operands node)
        return (verdict, { t with visiting := t.visiting.erase n }.record n verdict) :
          Except Error (Bool × Scan)) = .ok (verdict, t)) : Trusted g t := by
  split at h
  · split at h
    · cases h
    · obtain ⟨-, rfl⟩ := Prod.mk.inj (Except.ok.inj h)
      exact hs
  · obtain ⟨⟨all, u⟩, hall, h⟩ := bind_eq_ok h
    obtain ⟨-, rfl⟩ := Prod.mk.inj (Except.ok.inj h)
    -- the operands are looked at with this node on the path
    have hu := trusted_all (s := { s with visiting := n :: s.visiting }) htest _ hs hall
    exact Trusted.record (s := { u with visiting := u.visiting.erase n }) hu fun _ => hn

/-- **Looking at a node** keeps the recorded verdicts right, and reaches a right one. -/
theorem trusted_checkFrom {assertions verdict : Bool} {t : Scan} (fuel : Nat) (n : NodeId)
    (hs : Trusted g s) (h : checkFrom g assertions fuel s n = .ok (verdict, t)) :
    Trusted g t ∧ (verdict = true → g.MayCopy n) := by
  induction fuel generalizing s n verdict t with
  | zero =>
    obtain ⟨rfl, rfl⟩ := Prod.mk.inj (Except.ok.inj h)
    exact ⟨hs, fun h => by cases h⟩
  | succ fuel ih =>
    rw [checkFrom] at h
    cases hlookup : s.verdicts.lookup n with
    | some recorded =>
      rw [hlookup] at h
      obtain ⟨rfl, rfl⟩ := Prod.mk.inj (Except.ok.inj h)
      exact ⟨hs, fun h => hs n (by rw [hlookup, ← h])⟩
    | none =>
      rw [hlookup] at h
      obtain ⟨node, hnode, h⟩ := bind_eq_ok h
      rw [node_eq_ok_iff] at hnode
      have hmay : node.kind.cloneStrategy ≠ .unsupported → g.MayCopy n := by
        intro hne node' hnode'
        rw [hnode] at hnode'
        obtain rfl := Option.some.inj hnode'
        exact hne
      cases hstrategy : node.kind.cloneStrategy with
      | unsupported =>
        rw [hstrategy] at h
        obtain ⟨rfl, rfl⟩ := Prod.mk.inj (Except.ok.inj h)
        exact ⟨hs.record (by simp), by simp⟩
      | preCloned =>
        rw [hstrategy] at h
        obtain ⟨rfl, rfl⟩ := Prod.mk.inj (Except.ok.inj h)
        have hn := hmay (by simp [hstrategy])
        exact ⟨hs.record fun _ => hn, fun _ => hn⟩
      | common =>
        rw [hstrategy] at h
        have hn := hmay (by simp [hstrategy])
        exact ⟨trusted_operands (fun s m _ _ hs' h' => (ih m hs' h').1) hs hn h, fun _ => hn⟩
      | special shape =>
        rw [hstrategy] at h
        have hn := hmay (by simp [hstrategy])
        exact ⟨trusted_operands (fun s m _ _ hs' h' => (ih m hs' h').1) hs hn h, fun _ => hn⟩

end Scan

/-! ## Measuring a body -/

namespace BodyScan

variable {g : Graph} {limit : Option Nat} {s s' : BodyScan} {n : NodeId} {b : BlockId}

theorem trusted_node (hs : s.scan.Trusted g) (h : node g limit s n = .ok s') :
    s'.scan.Trusted g ∧ g.MayCopy n := by
  rw [node] at h
  split at h
  · cases h
  split at h
  · cases h
  split at h
  · cases h
  · cases h
  rename_i scan hcheck
  obtain ⟨htrusted, hmay⟩ := Scan.trusted_checkFrom (g.nodes.size + 1) n hs hcheck
  cases limit with
  | none =>
    obtain rfl := Except.ok.inj h
    exact ⟨htrusted, hmay rfl⟩
  | some limit =>
    simp only at h
    split at h
    · cases h
    · obtain rfl := Except.ok.inj h
      exact ⟨htrusted, hmay rfl⟩

/-- A scan that has come to an end has looked at everything. -/
theorem trusted_foldlM {α : Type} {f : BodyScan → α → Except Refusal BodyScan} {P : α → Prop}
    (hf : ∀ s x s', s.scan.Trusted g → f s x = .ok s' → s'.scan.Trusted g ∧ P x) (xs : List α)
    (hs : s.scan.Trusted g) (h : xs.foldlM f s = .ok s') :
    s'.scan.Trusted g ∧ ∀ x ∈ xs, P x := by
  induction xs generalizing s with
  | nil =>
    obtain rfl := Except.ok.inj h
    exact ⟨hs, by simp⟩
  | cons x xs ih =>
    rw [List.foldlM_cons] at h
    obtain ⟨t, ht, h⟩ := bind_eq_ok h
    obtain ⟨hfirst, hx⟩ := hf s x t hs ht
    obtain ⟨hrest, hxs⟩ := ih hfirst h
    exact ⟨hrest, List.forall_mem_cons.2 ⟨hx, hxs⟩⟩

/-- What is known of a block that was measured. -/
def Measured (g : Graph) (b : BlockId) : Prop :=
  ∃ block, g.block? b = some block ∧
    (block.flags.edgePad = true ∨ ∀ n ∈ block.nodes, g.MayCopy n)

theorem trusted_block (hs : s.scan.Trusted g) (h : block g limit s b = .ok s') :
    s'.scan.Trusted g ∧ Measured g b := by
  rw [block] at h
  split at h
  · cases h
  rename_i block hblock
  split at h
  case isTrue hpad =>
    obtain rfl := Except.ok.inj h
    exact ⟨hs, block, hblock, .inl hpad⟩
  split at h
  · cases h
  obtain ⟨htrusted, hall⟩ := trusted_foldlM (f := node g limit)
    (fun s n s' hs' hok => trusted_node hs' hok) block.nodes (by exact hs) h
  exact ⟨htrusted, block, hblock, .inr hall⟩

theorem measured_of_measure {blocks : List BlockId} {stats : BodyStats}
    (h : measure g limit blocks = .ok stats) : ∀ b ∈ blocks, Measured g b := by
  rw [measure] at h
  cases hfold : blocks.foldlM (block g limit) {} with
  | error e =>
    rw [hfold] at h
    cases h
  | ok s' =>
    refine (trusted_foldlM (fun s b s' hs hok => trusted_block hs hok) blocks ?_ hfold).2
    intro n hn
    cases hn

end BodyScan

/-- **An accepted loop is a region.** -/
theorem region_of_accepted {g : Graph} {config : UnrollConfig} {loop : NaturalLoop}
    {shape : LoopShape} (hs : g.Sound) (hg : g.Analyzed) (hloop : loop ∈ g.loopForest.loops)
    (ha : g.Accepted config loop shape) : Cloning.Region g loop.blocks shape.tail := by
  have hparts := loopParts_of_accepted hg hloop ha
  refine ⟨hs.wellFormed, fun b hb => hs.wellFormed.isLive_of_reaches (hparts.natural.reaches hb),
    hparts.closed, ?_⟩
  intro b hb block hblock n hn node hnode
  obtain ⟨block', hblock', hmeasured⟩ := BodyScan.measured_of_measure ha.body b hb
  rw [hblock] at hblock'
  obtain rfl := Option.some.inj hblock'
  rcases hmeasured with hpad | hall
  · obtain ⟨m, jump, hnodes, hjump, hkind⟩ := hs.pad b block hblock hpad
    obtain rfl : n = m := by simpa [hnodes] using hn
    rw [hnode] at hjump
    obtain rfl := Option.some.inj hjump
    simp [hkind, Kind.cloneStrategy]
  · exact hall n hn node hnode

end Unroller
