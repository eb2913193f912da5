import Mathlib.Tactic
import Unroller.Proofs.Cloning.Nodes

/-!
# The calls of the hook

A copying that succeeds is a tree: the copying of a block leads to that of its successors, unless
the hook has seen to them.  `Copies` is this tree, without depth, with the calls of the hook in
their order.

* `linkSlot`: the work on one successor slot.
* `copies_of_blockFrom`: a copying that succeeds is such a tree.
-/

namespace Unroller.Cloning

open Unroller.Graph

variable {hook : Hook} {b c : BlockId} {s s' : Session} {fuel : Nat}

/-! ## Slots -/

/-- The work on one slot: the successor is copied and the slot of the copy set to its copy. -/
def linkSlot (copyBlock : BlockId → Cloning BlockId) (source copy : BlockId) (slot : Nat) :
    Cloning Unit := do
  match (← get).graph.successor? source slot with
  | none => throw (.violation (.lostSuccessorSlot source slot))
  | some successor =>
    let target ← copyBlock successor
    tryGraph .violation fun g => (g.setSuccessor copy slot target).map fun g => ((), g)

theorem successors_eq_linkSlot (copyBlock : BlockId → Cloning BlockId) (source copy : BlockId)
    (s : Session) :
    successors copyBlock source copy s =
      (List.range (s.graph.successorCount source)).forM (linkSlot copyBlock source copy) s := rfl

/-! ## The tree of calls -/

/-- One call of the hook. -/
structure Call where
  source : BlockId
  copy : BlockId
  /-- The graph when the copying of the source began. -/
  before : Graph
  /-- The graph when the hook was called. -/
  graph : Graph
  /-- The answer: whether the hook has seen to the successors of the copy. -/
  handled : Bool

/-- A part of the work. -/
inductive Job where
  /-- The copying of a block, with the copy it results in. -/
  | block (source copy : BlockId)
  /-- The pointing of some slots of a copy at the copies of the source's successors. -/
  | slots (source copy : BlockId) (slots : List Nat)

/-- The work `job` takes the session `s` to `s'` and makes the calls `calls`. -/
inductive Copies (hook : Hook) : (job : Job) → (s : Session) → (calls : List Call) →
    (s' : Session) → Prop where
  /-- A block that was copied before is not copied again. -/
  | known {b c : BlockId} {s : Session} (copy : s.blockCopies.lookup b = some c) :
      Copies hook (.block b c) s [] s
  /-- The copy of a block is filled, then handed to the hook, and then its slots are seen to. -/
  | copied {b c : BlockId} {block : Block} {s s₀ s₁ s₂ s' : Session} {handled : Bool}
      {calls : List Call} (uncopied : s.blockCopies.lookup b = none)
      (source : s.graph.block? b = some block) (added : freshBlock b block s = .ok c s₀)
      (filled : fill b c block s₀ = .ok ⟨⟩ s₁) (answer : offer hook b c s₁ = .ok handled s₂)
      (rest : Copies hook
        (.slots b c (if handled then [] else List.range (s₂.graph.successorCount b))) s₂ calls s') :
      Copies hook (.block b c) s (⟨b, c, s.graph, s₁.graph, handled⟩ :: calls) s'
  /-- No slot is left. -/
  | done {b c : BlockId} {s : Session} : Copies hook (.slots b c []) s [] s
  /-- The successor is copied, and the slot pointed at its copy. -/
  | slot {b c t t' : BlockId} {i : Nat} {is : List Nat} {s s₁ s' : Session} {k : Graph}
      {calls calls' : List Call} (successor : s.graph.successor? b i = some t)
      (copying : Copies hook (.block t t') s calls s₁)
      (set : s₁.graph.setSuccessor c i t' = .ok k)
      (rest : Copies hook (.slots b c is) (onto s₁ k) calls' s') :
      Copies hook (.slots b c (i :: is)) s (calls ++ calls') s'

theorem offer_eq_ok {handled : Bool} (hok : offer hook b c s = .ok handled s') :
    ∃ k, hook b c s.graph = .ok handled k ∧
      s' = { s with graph := k, offered := s.offered ++ [(b, c)] } := by
  rw [offer] at hok
  cases hhook : hook b c s.graph with
  | error e k => simp [hhook] at hok
  | ok answer k =>
    simp only [hhook] at hok
    cases hok
    exact ⟨k, rfl, rfl⟩

theorem linkSlot_eq_ok {copyBlock : BlockId → Cloning BlockId} {i : Nat}
    (hok : linkSlot copyBlock b c i s = .ok ⟨⟩ s') :
    ∃ t t' s₁ k, s.graph.successor? b i = some t ∧ copyBlock t s = .ok t' s₁ ∧
      s₁.graph.setSuccessor c i t' = .ok k ∧ s' = onto s₁ k := by
  rw [linkSlot, get_bind] at hok
  cases hsucc : s.graph.successor? b i with
  | none =>
    simp only [hsucc] at hok
    cases hok
  | some t =>
    simp only [hsucc] at hok
    obtain ⟨t', s₁, hcopy, hset⟩ := bind_eq_ok hok
    cases hk : s₁.graph.setSuccessor c i t' with
    | error e =>
      simp only [tryGraph, hk, Except.map] at hset
      cases hset
    | ok k =>
      simp only [tryGraph, hk, Except.map] at hset
      cases hset
      exact ⟨t, t', s₁, k, rfl, hcopy, hk, rfl⟩

theorem copies_of_forM_linkSlot {copyBlock : BlockId → Cloning BlockId}
    (hcopyBlock : ∀ t t' s s', copyBlock t s = .ok t' s' →
      ∃ calls, Copies hook (.block t t') s calls s')
    (is : List Nat) (hok : is.forM (linkSlot copyBlock b c) s = .ok ⟨⟩ s') :
    ∃ calls, Copies hook (.slots b c is) s calls s' := by
  induction is generalizing s with
  | nil =>
    cases hok
    exact ⟨[], .done⟩
  | cons i is ih =>
    obtain ⟨_, s₁, hslot, hrest⟩ := bind_eq_ok hok
    obtain ⟨t, t', s₂, k, hsucc, hcopy, hset, rfl⟩ := linkSlot_eq_ok hslot
    obtain ⟨calls, hcalls⟩ := hcopyBlock t t' s s₂ hcopy
    obtain ⟨calls', hcalls'⟩ := ih hrest
    exact ⟨calls ++ calls', .slot hsucc hcalls hset hcalls'⟩

/-- **A copying that succeeds** is a tree of calls. -/
theorem copies_of_blockFrom (hok : blockFrom hook fuel b s = .ok c s') :
    ∃ calls, Copies hook (.block b c) s calls s' := by
  induction fuel generalizing b c s s' with
  | zero => cases hok
  | succ fuel ih =>
    rw [blockFrom, get_bind] at hok
    cases hlookup : s.blockCopies.lookup b with
    | some copy =>
      simp only [hlookup] at hok
      cases hok
      exact ⟨[], .known hlookup⟩
    | none =>
      simp only [hlookup] at hok
      rw [get_bind] at hok
      cases hblock : s.graph.block? b with
      | none =>
        simp only [hblock] at hok
        cases hok
      | some block =>
        simp only [hblock] at hok
        obtain ⟨copy, s₀, hadded, hok⟩ := bind_eq_ok hok
        obtain ⟨_, s₁, hfilled, hok⟩ := bind_eq_ok hok
        obtain ⟨handled, s₂, hanswer, hok⟩ := bind_eq_ok hok
        cases handled with
        | true =>
          cases hok
          exact ⟨_, .copied hlookup hblock hadded hfilled hanswer .done⟩
        | false =>
          obtain ⟨_, s₃, hslots, hok⟩ := bind_eq_ok hok
          cases hok
          rw [successors_eq_linkSlot] at hslots
          obtain ⟨calls, hcalls⟩ := copies_of_forM_linkSlot (fun t t' s s' => ih) _ hslots
          exact ⟨_, .copied hlookup hblock hadded hfilled hanswer hcalls⟩

end Unroller.Cloning
