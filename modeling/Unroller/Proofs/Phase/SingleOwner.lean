import Unroller.Proofs.Cloning.Sustaining
import Unroller.Proofs.Phase.Rounds

/-!
# Records keep a single owner

A valid graph whose records have single owners is copied, edited, cleaned up, threaded and unrolled
in any order, with any arguments, and whether or not the single operations succeed.  At no point do
two nodes come to hold one record, so an edit of a slot never reaches another block.

* `CopyEdit`, `Hook.OnlyEditsCopy`: the edits of one block, and the hooks that make no other.
* `sustains_unrollLoop`, `sustains_run`: unrolling a loop, and the whole phase.
* `Session.Step`: one operation on a graph.
* `Session.keeps_singleOwner`: what holds after any number of them.
-/

namespace Unroller

open Unroller.Graph Relation

variable {g h : Graph} {b c t : BlockId} {slot : Nat} {s : Session}

/-! ## Hooks that only edit the copy -/

/-- An edit of the block `c` and of nothing else. -/
inductive CopyEdit (c : BlockId) : Graph → Graph → Prop where
  /-- A slot comes to lead elsewhere. -/
  | redirect {g h : Graph} {slot : Nat} {t : BlockId} (edit : g.setSuccessor c slot t = .ok h) :
      CopyEdit c g h
  /-- The block comes to end in a jump. -/
  | jump {g h : Graph} {t : BlockId} (edit : g.convertToJump c t = .ok h) : CopyEdit c g h
  /-- A node that names no record is added, and uses what the block has. -/
  | append {g h : Graph} {node : Node} {n : NodeId} (kind : node.kind ≠ .phi)
      (bare : node.payload.handle? = none) (range : g.InRange node.children)
      (uses : ∀ d ∈ g.operands node, g.Lists c d) (edit : g.appendNode c node = .ok (n, h)) :
      CopyEdit c g h
  /-- A node is added together with a record. -/
  | attach {g h : Graph} {r : Record} {node : Node} {n : NodeId}
      (payload : node.payload = (Cloning.addRecord g r).1)
      (admits : (Cloning.addRecord g r).2.admits node.kind node.payload = true)
      (range : g.InRange node.children) (uses : ∀ d ∈ g.operands node, g.Lists c d)
      (edit : (Cloning.addRecord g r).2.appendNode c node = .ok (n, h)) : CopyEdit c g h
  /-- A node is given other operands that the block has, or loses its record. -/
  | revise {g : Graph} {n : NodeId} {change : Node → Node} (runs : g.Runs c n)
      (kind : ∀ node, (change node).kind = node.kind)
      (payload : ∀ node,
        (change node).payload = node.payload ∨ (change node).payload.handle? = none)
      (children : ∀ node, (change node).children = node.children ∨
        g.InRange (change node).children ∧ ∀ d ∈ g.operands (change node), g.Lists c d) :
      CopyEdit c g (g.modifyNode n change)
  /-- Records that the nodes of the block name get other contents. -/
  | refill {g : Graph} {branches : Array BranchRecord} {switches : Array SwitchRecord}
      {callLayouts : Array CallVarargs} {loadLayouts : Array LoadVarargs}
      (room : branches.size = g.branches.size ∧ switches.size = g.switches.size ∧
        callLayouts.size = g.callLayouts.size ∧ loadLayouts.size = g.loadLayouts.size)
      (others : ∀ p, ¬ g.Names c p → { g with
        branches := branches, switches := switches, callLayouts := callLayouts
        loadLayouts := loadLayouts }.record? p = g.record? p) :
      CopyEdit c g { g with
        branches := branches, switches := switches, callLayouts := callLayouts
        loadLayouts := loadLayouts }
  /-- Phis and nodes are reordered or left out, or something else is noted of the block. -/
  | relist {g : Graph} {change : Block → Block}
      (fewer : ∀ block, (change block).phis ⊆ block.phis ∧ (change block).nodes ⊆ block.nodes) :
      CopyEdit c g (g.modifyBlock c change)

/-- Whatever the hook does, and whether or not it fails, it only edits the copy it is given. -/
def Hook.OnlyEditsCopy (hook : Hook) : Prop :=
  ∀ source copy g, ReflTransGen (CopyEdit copy) g (finalState (hook source copy g))

theorem Graph.Separate.proper_of_lists (hg : g.Separate) {d : NodeId} (hd : g.Lists c d) :
    g.Proper d := by
  obtain ⟨block, hb, hmem⟩ := hd
  rcases List.mem_append.1 hmem with hphi | hnode
  · exact proper_of_isPhi (hg.phi c d ⟨block, hb, hphi⟩)
  · exact hg.proper c d ⟨block, hb, hnode⟩

theorem CopyEdit.sustains (hedit : CopyEdit c g h) : Sustains g h := by
  cases hedit with
  | redirect edit => exact sustains_setSuccessor edit
  | jump edit => exact sustains_convertToJump edit
  | @append _ node n kind bare range uses edit =>
    intro hg
    cases Cloning.appendNode_eq_ok edit
    have hchildren := Cloning.properChildren_of_operands range
      fun d hd => hg.proper_of_lists (uses d hd)
    exact (Cloning.sustains_withNode kind hchildren (Cloning.vacant_of_bare bare)).1 hg
  | @attach _ r node n payload admits range uses edit =>
    intro hg
    cases Cloning.appendNode_eq_ok edit
    -- the record first, then the node that holds it
    obtain ⟨hd, hsep⟩ := Cloning.sustains_addRecord g r hg
    have hkind : node.kind ≠ .phi := by
      intro hphi
      rw [hphi, payload] at admits
      cases r <;> cases admits
    have hchildren := (Cloning.properChildren_of_operands range
      fun d hd => hg.proper_of_lists (uses d hd)).develops hd
    have hvacant : Cloning.Vacant (Cloning.addRecord g r).2 node.kind node.payload :=
      ⟨fun _ => admits, payload ▸ Cloning.unheld_addRecord hg r⟩
    obtain ⟨hd', hsep'⟩ := (Cloning.sustains_withNode hkind hchildren hvacant).1 hsep
    exact ⟨hd.trans hd', hsep'⟩
  | revise runs kind payload children =>
    intro hg
    refine Sustains.of_blocks
      (.of_modifyNode fun node _ => ⟨kind node, payload node, .inr ?_⟩) rfl hg
    refine (children node).imp_right fun hnew => ⟨hnew.1, fun d hd => .inl ?_⟩
    exact hg.proper_of_lists (hnew.2 d hd)
  | refill room others =>
    exact .of_blocks ⟨⟨le_rfl, room.1.ge, room.2.1.ge, room.2.2.1.ge, room.2.2.2.ge⟩, .refl _,
      fun _ node hnode => ⟨node, hnode, .refl _ _ node⟩⟩ rfl
  | relist fewer => exact .of_modifyBlock fewer

theorem Hook.OnlyEditsCopy.sustains {hook : Hook} (hhook : hook.OnlyEditsCopy) : hook.Sustains := by
  intro source copy g
  have hedits := hhook source copy g
  generalize finalState (hook source copy g) = h at hedits ⊢
  induction hedits with
  | refl => exact .refl g
  | tail _ hedit ih => exact ih.trans hedit.sustains

/-- A computation each part of which takes a number of steps. -/
theorem finalState_bind {ε σ α β : Type} {R : σ → σ → Prop} {x : EStateM ε σ α}
    {f : α → EStateM ε σ β} {s : σ} (hx : ReflTransGen R s (finalState (x s)))
    (hf : ∀ a t, ReflTransGen R t (finalState (f a t))) :
    ReflTransGen R s (finalState ((x >>= f) s)) := by
  cases hrun : x s with
  | ok a t =>
    rw [hrun] at hx
    rw [Cloning.bind_ok hrun]
    exact hx.trans (hf a t)
  | error e t =>
    rw [hrun] at hx
    have heq : (x >>= f) s = .error e t := by simp [bind, EStateM.bind, hrun]
    rw [heq]
    exact hx

theorem finalState_editGraph {R : Graph → Graph → Prop} {edit : Graph → Except Violation Graph}
    (hedit : ∀ h, edit g = .ok h → R g h) : ReflTransGen R g (finalState (editGraph edit g)) := by
  unfold editGraph
  cases hrun : edit g with
  | ok h => exact .single (hedit h hrun)
  | error e => exact .refl

/-- The hook that unrolling uses. -/
theorem LoopShape.onlyEditsCopy_stitch (shape : LoopShape) (following : BlockId) :
    (shape.stitch following).OnlyEditsCopy := by
  intro source copy g
  unfold LoopShape.stitch
  split
  · cases shape.isFull with
    | true => exact finalState_bind (finalState_editGraph fun _ => .jump) fun _ _ => .refl
    | false =>
      refine finalState_bind (finalState_editGraph fun _ => .redirect) fun _ k => ?_
      exact finalState_bind (finalState_editGraph fun _ => .redirect) fun _ _ => .refl
  · exact .refl

/-! ## Unrolling -/

namespace Cloning

theorem behaves_copyBodies (shape : LoopShape) (count : Nat) (following : BlockId)
    (hs : Working s) : Behaves (fun _ _ => True) (shape.copyBodies count following) s := by
  induction count generalizing s following with
  | zero => exact .pure hs trivial
  | succ count ih =>
    unfold LoopShape.copyBodies
    refine (behaves_clear hs).bind fun _ t ht _ => ?_
    refine (behaves_block (shape.onlyEditsCopy_stitch following).sustains shape.header 0
      ht.working).bind fun copy u hu _ => ?_
    exact ih copy hu.working

theorem behaves_unroll (shape : LoopShape) (config : UnrollConfig) (hs : Working s) :
    Behaves (fun _ _ => True) (shape.unroll config) s := by
  unfold LoopShape.unroll
  refine (behaves_copyBodies shape _ _ hs).bind fun first t ht _ => ?_
  have hend : ∀ k, (if shape.isFull then t.graph.convertToJump shape.tail first
      else t.graph.setSuccessor shape.tail shape.inLoopSlot first) = .ok k →
      Graph.Sustains t.graph k := by
    intro k hk
    split at hk
    · exact sustains_convertToJump hk
    · exact sustains_setSuccessor hk
  refine (behaves_edit (fun g => if shape.isFull then g.convertToJump shape.tail first
    else g.setSuccessor shape.tail shape.inLoopSlot first) ht.working hend).bind fun _ u hu _ => ?_
  exact behaves_finalize hu.working

end Cloning

/-- **Unrolling a loop**, of whatever shape. -/
theorem sustains_unrollLoop (config : UnrollConfig) (shape : LoopShape) (g : Graph) :
    Sustains g (finalState (Graph.unrollLoop config shape g)) := by
  intro hg
  have hs : Cloning.Working { graph := g } := ⟨hg, by simp⟩
  have hunroll := (Cloning.behaves_unroll shape config hs).onward
  unfold Graph.unrollLoop
  cases hrun : shape.unroll config { graph := g } with
  | ok removed session | error e session =>
    rw [hrun] at hunroll
    exact ⟨hunroll.develops, hunroll.working.separate⟩

namespace Compilation

/-- **The whole phase.** -/
theorem sustains_run (c : Compilation) : Sustains c.graph (finalState (run c)).graph :=
  HoldsOverSteps.run (R := Sustains)
    { refl := .refl
      trans := .trans
      cacheLoops := sustains_cacheLoops
      unrollLoop := sustains_unrollLoop
      resetReachability := sustains_resetReachability
      threadLocals := sustains_threadLocals } c

end Compilation

/-! ## Any sequence of operations -/

/-- One operation on the graph of a session, whether or not it succeeds. -/
inductive Session.Step : Session → Session → Prop where
  /-- A block is copied, with what it leads to. -/
  | clone {s : Session} {hook : Hook} (edits : hook.OnlyEditsCopy) (source : BlockId) (reach :
    Nat) :
      Step s (finalState (Cloning.block hook source reach s))
  /-- The copies made so far are forgotten. -/
  | clear {s : Session} : Step s s.clear
  | convertToJump {s : Session} {b t : BlockId} {h : Graph}
      (edit : s.graph.convertToJump b t = .ok h) : Step s { s with graph := h }
  | setSuccessor {s : Session} {b t : BlockId} {slot : Nat} {h : Graph}
      (edit : s.graph.setSuccessor b slot t = .ok h) : Step s { s with graph := h }
  | finalize {s : Session} : Step s s.finalize.2
  | threadLocals {s : Session} : Step s { s with graph := s.graph.threadLocals }
  /-- A phase is run, with any settings and any history. -/
  | phase {s : Session} (phase : Phase) (log : EventLog) :
      Step s { s with graph := (finalState (Compilation.run ⟨phase, s.graph, log⟩)).graph }

/-- **One operation** keeps a session working. -/
theorem Session.Step.working {s s' : Session} (hstep : Session.Step s s') (hs : Cloning.Working s) :
    Cloning.Working s' := by
  cases hstep with
  | clone edits source reach =>
    exact (Cloning.behaves_block edits.sustains source reach hs).onward.working
  | clear => exact (Cloning.behaves_clear hs).onward.working
  | convertToJump edit => exact (hs.onto (sustains_convertToJump edit)).working
  | setSuccessor edit => exact (hs.onto (sustains_setSuccessor edit)).working
  | finalize => exact (hs.onto (Cloning.sustains_finalize s)).working
  | threadLocals => exact (hs.onto (sustains_threadLocals s.graph)).working
  | phase phase log =>
    exact (hs.onto (Compilation.sustains_run ⟨phase, s.graph, log⟩)).working

theorem Session.working_of_steps {s s' : Session} (hsteps : ReflTransGen Session.Step s s')
    (hs : Cloning.Working s) : Cloning.Working s' := by
  induction hsteps with
  | refl => exact hs
  | tail _ hstep ih => exact hstep.working ih

/-- **Records keep a single owner.**  A valid graph in which no two nodes that live blocks run hold
one record stays so under any sequence of operations.  In every graph on the way, pointing an
existing slot of a block at another block succeeds, and changes that slot and no other slot of that
block or of any other. -/
theorem Session.keeps_singleOwner (hvalid : g.validate = .ok ()) (howner : g.SingleOwner)
    (hsteps : ReflTransGen Session.Step { graph := g } s) :
    s.graph.SingleOwner ∧ ∀ b slot t, slot < s.graph.successorCount b →
      ∃ h, s.graph.setSuccessor b slot t = .ok h ∧
        (∀ d i, h.successor? d i = if d = b ∧ i = slot then some t else s.graph.successor? d i) ∧
        ∀ d, h.successorCount d = s.graph.successorCount d := by
  have hseparate := (validate_eq_ok_iff.1 hvalid).separate howner
  have hworking := Session.working_of_steps hsteps ⟨hseparate, by simp⟩
  exact ⟨hworking.separate.owner, fun b slot t hslot =>
    hworking.separate.setSuccessor_redirects hslot t⟩

/-- The session in which the entry and the loop of `countingLoop` have been copied, and the copies,
to which nothing leads, removed. -/
def Session.countingCopied : Session :=
  (finalState (Cloning.block (countingShape.stitch 2) 0 0
    { graph := (Builder.countingLoop true).graph.threadLocals })).finalize.2

theorem Session.keeps_singleOwner_countingLoop :
    Session.countingCopied.graph.SingleOwner ∧
      ∃ h, Session.countingCopied.graph.setSuccessor 1 0 2 = .ok h ∧
        ∀ d i, h.successor? d i =
          if d = 1 ∧ i = 0 then some 2 else Session.countingCopied.graph.successor? d i := by
  have hvalid := validate_eq_ok_iff.2 (finished_countingLoop true).sound_analyzed.1.wellFormed
  have howner : (Builder.countingLoop true).graph.threadLocals.SingleOwner := by decide +kernel
  have hclone : Session.Step { graph := (Builder.countingLoop true).graph.threadLocals } _ :=
    .clone (countingShape.onlyEditsCopy_stitch 2) 0 0
  obtain ⟨hsingle, hedit⟩ :=
    Session.keeps_singleOwner hvalid howner (.tail (.single hclone) .finalize)
  have hslot : 0 < Session.countingCopied.graph.successorCount 1 := by decide +kernel
  obtain ⟨h, hok, hslots, -⟩ := hedit 1 0 2 hslot
  exact ⟨hsingle, h, hok, hslots⟩

end Unroller
