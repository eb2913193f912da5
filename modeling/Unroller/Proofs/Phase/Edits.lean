import Mathlib.Tactic
import Unroller.Proofs.Graph.Editing
import Unroller.Proofs.Phase.Rounds

/-!
# Copying and unrolling consist of edits

A computation in a session changes the graph by edits only.  So the graphs that copying, unrolling
and the whole phase leave behind, also where they fail midway, come from the graph they were given
by edits.

* `ByEdits`: a computation that edits the graph of a session.
* `byEdits_nodeFrom`, `byEdits_blockFrom`: copying, by induction on how deep the work goes.
* `edited_unrollLoop`, `edited_run`: unrolling a loop, and the whole phase.
-/

namespace Unroller

open Unroller.Graph (Edited)

/-- Where edits lead from `o` to the graph the hook is given, they lead from `o` to the graph it
leaves, whether or not it fails. -/
def Hook.ByEdits (o : Graph) (hook : Hook) : Prop :=
  ∀ source copy g, Edited o g → Edited o (finalState (hook source copy g))

namespace Cloning

variable {α β ε : Type} {o g : Graph} {n : NodeId} {node : Node} {b target : BlockId} {s : Session}
  {hook : Hook}

/-! ## Computations that edit -/

/-- Where edits lead from `o` to the graph of a session, they lead from `o` to the graph that the
computation leaves, whether or not it fails. -/
def ByEdits (o : Graph) (x : Cloning α) : Prop :=
  ∀ s, Edited o s.graph → Ends (fun _ t => Edited o t.graph) (fun _ t => Edited o t.graph) x s

namespace ByEdits

theorem pure (a : α) : ByEdits o (pure a) := fun _ hs => .of_ok rfl hs

theorem throw (e : Error) : ByEdits o (throw e : Cloning α) := fun _ hs => .of_error rfl hs

theorem bind {x : Cloning α} {f : α → Cloning β} (hx : ByEdits o x) (hf : ∀ a, ByEdits o (f a)) :
    ByEdits o (x >>= f) := fun s hs => (hx s hs).bind fun a t ht => hf a t ht

theorem get {f : Session → Cloning α} (hf : ∀ s, Edited o s.graph →
    Ends (fun _ t => Edited o t.graph) (fun _ t => Edited o t.graph) (f s) s) :
      ByEdits o (get >>= f) :=
  fun s hs => .get (hf s hs)

/-- A copy of a node is remembered. -/
theorem rememberNode (n copy : NodeId) :
    ByEdits o (modify fun s => { s with nodeCopies := (n, copy) :: s.nodeCopies }) :=
  fun _ hs => .of_ok rfl hs

/-- A copy of a block is remembered. -/
theorem rememberBlock (b copy : BlockId) :
    ByEdits o (modify fun s => { s with blockCopies := (b, copy) :: s.blockCopies }) :=
  fun _ hs => .of_ok rfl hs

theorem onGraph {change : Graph → α × Graph} (hchange : ∀ g, Edited o g → Edited o (change g).2) :
    ByEdits o (onGraph change) := fun s hs => .of_ok rfl (hchange s.graph hs)

theorem tryGraph {wrap : ε → Error} {change : Graph → Except ε (α × Graph)}
    (hchange : ∀ g a h, Edited o g → change g = .ok (a, h) → Edited o h) :
    ByEdits o (tryGraph wrap change) := by
  intro s hs
  cases hrun : change s.graph with
  | ok e =>
    have hok : Cloning.tryGraph wrap change s = .ok e.1 { s with graph := e.2 } := by
      simp only [Cloning.tryGraph, hrun]
    exact .of_ok hok (hchange s.graph e.1 e.2 hs hrun)
  | error e =>
    have herror : Cloning.tryGraph wrap change s = .error (wrap e) s := by
      simp only [Cloning.tryGraph, hrun]
    exact .of_error herror hs

/-- An edit of successors. -/
theorem edit {edit : Graph → Except Violation Graph}
    (hedit : ∀ g h, Edited o g → edit g = .ok h → Edited o h) :
    ByEdits o (Cloning.tryGraph .violation fun g => (edit g).map fun g => ((), g)) := by
  refine .tryGraph fun g _ h hg hok => ?_
  cases hrun : edit g with
  | error e => simp [hrun, Except.map] at hok
  | ok k =>
    simp only [hrun, Except.map, Except.ok.injEq, Prod.mk.injEq, true_and] at hok
    exact hok ▸ hedit g k hg hrun

theorem forM {items : List α} {f : α → Cloning PUnit} (hf : ∀ i, ByEdits o (f i)) :
    ByEdits o (items.forM f) := fun _ hs => Ends.forM hs fun i _ => hf i

theorem discard {x : Cloning α} (hx : ByEdits o x) : ByEdits o (discard x) :=
  hx.bind fun _ => .pure ()

end ByEdits

/-! ## Nodes -/

theorem byEdits_payload (n : NodeId) (node : Node) : ByEdits o (payload n node) := by
  unfold payload
  split
  · rename_i shape _
    intro s hs
    rcases record_cases n shape node.payload s with ⟨r, _, hok⟩ | ⟨v, herror⟩
    · refine .of_ok hok (hs.tail ?_)
      cases r <;> exact .rest rfl rfl
    · exact .of_error herror hs
  · exact .pure _

/-- **Copying a node**, by induction on how deep its operands are followed. -/
theorem byEdits_nodeFrom (target : BlockId) (fuel : Nat) (n : NodeId) :
    ByEdits o (nodeFrom target fuel n) := by
  induction fuel generalizing n with
  | zero => exact .throw _
  | succ fuel ih =>
    have hchildren : ∀ c, ByEdits o (children (nodeFrom target fuel) c) := by
      intro c s hs
      have hends := ends_operands (I := fun t => Edited o t.graph) (c := c) hs
        (fun _ _ n _ t ht => ih n t ht) fun t args ht => ht.tail (.rest rfl rfl)
      exact hends.mono (fun _ _ h => h.1) fun _ _ h => h
    unfold nodeFrom
    refine .get fun s hs => ?_
    split
    · exact ByEdits.pure _ s hs
    refine ByEdits.get (fun s hs => ?_) s hs
    split
    · exact ByEdits.throw _ s hs
    rename_i node _
    split
    · exact ByEdits.throw _ s hs
    · exact ByEdits.throw _ s hs
    all_goals
      have happend : ∀ c p, ByEdits o (tryGraph .defect
          (·.appendNode target { node with children := c, payload := p })) :=
        fun c p => .tryGraph fun g _ h hg hok => hg.tail (.appendNode hok)
      exact ((hchildren _).bind fun c => (byEdits_payload n node).bind fun p =>
        (happend c p).bind fun copy => (ByEdits.rememberNode n copy).bind fun _ => .pure copy) s hs

theorem byEdits_phi (target : BlockId) (n : NodeId) : ByEdits o (phi target n) := by
  unfold phi
  refine .get fun s hs => ?_
  split
  · exact ByEdits.throw _ s hs
  · rename_i node _
    have happend : ByEdits o (tryGraph .defect
        (·.appendPhi target { node with children := .none })) :=
      .tryGraph fun g _ h hg hok => hg.tail (.appendPhi hok)
    exact (happend.bind fun copy => ByEdits.rememberNode n copy) s hs

/-! ## Blocks -/

theorem byEdits_snapshot (source : BlockId) (operands : Snapshot) :
    ByEdits o (snapshot source operands) := by
  intro s hs
  unfold snapshot
  refine Ends.foldlM (I := fun t : Session => Edited o t.graph) hs (fun acc e t ht => .get ?_) _
  split
  · exact ByEdits.pure _ t ht
  · exact ByEdits.throw _ t ht

theorem byEdits_freshBlock (source : BlockId) (block : Block) :
    ByEdits o (freshBlock source block) := by
  unfold freshBlock
  refine (ByEdits.onGraph fun g hg => hg.tail (.insertBlock _)).bind fun copy => ?_
  refine (ByEdits.onGraph fun g hg => ?_).bind fun _ =>
    (ByEdits.rememberBlock source copy).bind fun _ => .pure copy
  exact hg.tail (.modifyBlock copy _ (fun _ => rfl) (fun _ => rfl) fun _ => rfl)

theorem byEdits_fill (source copy : BlockId) (block : Block) :
    ByEdits o (fill source copy block) := by
  unfold fill
  refine (ByEdits.forM fun p => byEdits_phi copy p).bind fun _ => ?_
  refine (ByEdits.forM fun n => ?_).bind fun _ => ?_
  · exact (ByEdits.get fun s hs => byEdits_nodeFrom copy _ n s hs).discard
  refine (byEdits_snapshot source block.head).bind fun head =>
    (byEdits_snapshot source block.tail).bind fun tail => .onGraph fun g hg => ?_
  exact hg.tail (.modifyBlock copy _ (fun _ => rfl) (fun _ => rfl) fun _ => rfl)

theorem byEdits_offer (hhook : hook.ByEdits o) (source copy : BlockId) :
    ByEdits o (offer hook source copy) := by
  intro s hs
  have hedits := hhook source copy s.graph hs
  cases hrun : hook source copy s.graph with
  | ok handled k =>
    rw [hrun] at hedits
    have hok : offer hook source copy s =
        .ok handled { s with graph := k, offered := s.offered ++ [(source, copy)] } := by
      simp only [offer, hrun]
    exact .of_ok hok hedits
  | error e k =>
    rw [hrun] at hedits
    have herror : offer hook source copy s =
        .error e { s with graph := k, offered := s.offered ++ [(source, copy)] } := by
      simp only [offer, hrun]
    exact .of_error herror hedits

/-- **Copying a block and what it leads to**, by induction on how deep the work goes. -/
theorem byEdits_blockFrom (hhook : hook.ByEdits o) (fuel : Nat) (source : BlockId) :
    ByEdits o (blockFrom hook fuel source) := by
  induction fuel generalizing source with
  | zero => exact .throw _
  | succ fuel ih =>
    have hsuccessors : ∀ copy, ByEdits o (successors (blockFrom hook fuel) source copy) := by
      intro copy
      unfold successors
      refine .get fun s hs => ByEdits.forM (fun slot => .get fun t ht => ?_) s hs
      split
      · exact ByEdits.throw _ t ht
      · rename_i successor _
        exact ((ih successor).bind fun copy' =>
          ByEdits.edit fun g h hg hok => hg.tail (.setSuccessor hok)) t ht
    unfold blockFrom
    refine .get fun s hs => ?_
    split
    · exact ByEdits.pure _ s hs
    refine ByEdits.get (fun s hs => ?_) s hs
    split
    · exact ByEdits.throw _ s hs
    rename_i block _
    refine ((byEdits_freshBlock source block).bind fun copy =>
      (byEdits_fill source copy block).bind fun _ =>
        (byEdits_offer hhook source copy).bind fun handled => ?_) s hs
    cases handled with
    | true => exact .pure copy
    | false => exact (hsuccessors copy).bind fun _ => .pure copy

theorem byEdits_block (hhook : hook.ByEdits o) (source : BlockId) (reach : Nat) :
    ByEdits o (Cloning.block hook source reach) := by
  unfold Cloning.block
  exact .get fun s hs => byEdits_blockFrom hhook _ source s hs

theorem edited_finalize (hs : Edited o s.graph) : Edited o s.finalize.2.graph := by
  have hcommit : Edited o s.graph.commitInsertions.2 := hs.tail .commitInsertions
  have hclean : ∀ (committed : Bool) (k : Graph), Edited o k →
      Edited o
        (if committed then k else k.invalidate.dethread).resetReachability.killUnreachable.2 := by
    intro committed k hk
    have hcleared : Edited o k.invalidate := hk.tail (.rest rfl rfl)
    have hdethread : Edited o (if committed then k else k.invalidate.dethread) := by
      cases committed
      · exact hcleared.tail (.dethread)
      · exact hk
    exact (hdethread.tail .resetReachability).tail .killUnreachable
  exact hclean s.graph.commitInsertions.1 _ hcommit

theorem byEdits_finalize : ByEdits o finalize := by
  intro s hs
  cases hphis : s.graph.requirePhis with
  | error e => exact .of_error (e := e) (by rw [finalize, hphis]) hs
  | ok _ =>
    have hok : finalize s = .ok s.finalize.1 s.finalize.2 := by rw [finalize, hphis]
    exact .of_ok hok (edited_finalize hs)

end Cloning

/-! ## Unrolling -/

open Cloning (Ends ByEdits)

variable {o : Graph}

/-- The hook that unrolling uses. -/
theorem LoopShape.byEdits_stitch (shape : LoopShape) (following : BlockId) :
    (shape.stitch following).ByEdits o := by
  intro source copy g hg
  refine Ends.final ?_
  unfold LoopShape.stitch
  split
  · cases shape.isFull with
    | true =>
      exact (ends_editGraph (I := Edited o) hg
        fun h hok => hg.tail (.convertToJump hok)).bind fun _ t ht => .of_ok rfl ht
    | false =>
      have hedge : ∀ g slot target, Edited o g →
          Ends (fun _ => Edited o) (fun _ => Edited o)
            (editGraph fun g => g.setSuccessor copy slot target) g :=
        fun g slot target hg => ends_editGraph hg fun h hok => hg.tail (.setSuccessor hok)
      exact (hedge g _ _ hg).bind fun _ t ht => (hedge t _ _ ht).bind fun _ u hu => .of_ok rfl hu
  · exact .of_ok rfl hg

namespace LoopShape

theorem byEdits_copyBodies (shape : LoopShape) (count : Nat) (following : BlockId) :
    ByEdits o (shape.copyBodies count following) := by
  induction count generalizing following with
  | zero => exact .pure following
  | succ count ih =>
    have hclear : ByEdits o Cloning.clear := fun _ hs => .of_ok rfl hs
    unfold copyBodies
    exact hclear.bind fun _ =>
      (Cloning.byEdits_block (shape.byEdits_stitch following) shape.header 0).bind fun copy =>
        ih copy

theorem byEdits_unroll (shape : LoopShape) (config : UnrollConfig) :
    ByEdits o (shape.unroll config) := by
  have hend : ∀ first, ByEdits o (Cloning.tryGraph .violation fun g =>
      (if shape.isFull then g.convertToJump shape.tail first
        else g.setSuccessor shape.tail shape.inLoopSlot first).map fun g => ((), g)) := by
    refine fun first => .edit fun g h hg hok => ?_
    split at hok
    · exact hg.tail (.convertToJump hok)
    · exact hg.tail (.setSuccessor hok)
  unfold unroll
  exact (shape.byEdits_copyBodies _ _).bind fun first => (hend first).bind fun _ =>
    Cloning.byEdits_finalize

end LoopShape

/-- **Unrolling a loop**, of whatever shape. -/
theorem edited_unrollLoop (config : UnrollConfig) (shape : LoopShape) {g : Graph}
    (hg : Edited o g) :
    Edited o (finalState (Graph.unrollLoop config shape g)) := by
  have hends := (shape.byEdits_unroll config { graph := g } hg).final
  unfold Graph.unrollLoop
  cases hrun : shape.unroll config { graph := g } with
  | ok removed session | error e session =>
    rw [hrun] at hends
    exact hends

theorem edited_cacheLoops (g : Graph) : Edited g g.cacheLoops := by
  refine .single ?_
  rw [Graph.cacheLoops]
  split <;> exact .rest rfl rfl

/-- Every step of the phase consists of edits, -/
theorem Compilation.holdsOverSteps_edited : Compilation.HoldsOverSteps Edited where
  refl := fun _ => .refl
  trans := .trans
  cacheLoops := edited_cacheLoops
  unrollLoop := fun config shape _ => edited_unrollLoop config shape .refl
  resetReachability := fun _ => .single .resetReachability
  threadLocals := fun _ => .single .threadLocals

/-- **and so does a run**, whether or not it succeeds. -/
theorem Compilation.edited_run (c : Compilation) :
    Edited c.graph (finalState (Compilation.run c)).graph :=
  holdsOverSteps_edited.run c

end Unroller
