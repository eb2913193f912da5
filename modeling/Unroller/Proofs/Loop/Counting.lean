import Mathlib.Tactic
import Unroller.Proofs.Execution.Body
import Unroller.Proofs.Results

/-!
# The counter of a loop at run time

The pattern that `inductionVariable` finds in the last block of a loop says what that block
computes: it reads the counter, steps it, writes it back, compares the result with the bound and
branches on the comparison or its negation.

* `InductionPattern`: all that a successful search has found.
* `Evaluated.decision_tail`: the last block steps the counter as the induction variable does, and
  leaves the loop exactly when the stepped value fails the test.
* `Evaluated.getLocal_preHeader`: the block before the loop leaves the initial value in the counter.
-/

namespace Unroller

open Machine

namespace Graph

variable {g : Graph} {b : BlockId} {n c : NodeId} {node : Node} {block : Block}

/-! ## What the search has found -/

/-- The nodes of a comparison of an updated local with a bound. -/
structure ExitPattern (g : Graph) (condition : NodeId) (test : ExitTest) : Prop where
  compare : ∃ node, g.node? condition = some node ∧ node.kind = test.compare ∧
    node.kind.isInductionCompare = true ∧ (node.child 0).node? = some test.update ∧
    (node.child 1).node? = some test.bound
  update : ∃ node read step, g.node? test.update = some node ∧ node.kind = test.updateKind ∧
    node.kind.isInductionUpdate = true ∧ (node.child 0).node? = some read ∧
    (node.child 1).node? = some step ∧
    (∃ readNode, g.node? read = some readNode ∧ readNode.kind = .getLocal ∧
      readNode.slot? = some test.slot) ∧
    ∃ stepNode, g.node? step = some stepNode ∧ stepNode.int32? = some test.step

theorem int32Operand?_eq_some {e : Edge} {out : NodeId × Node}
    (h : g.int32Operand? e = some out) : e.node? = some out.1 ∧ g.node? out.1 = some out.2 := by
  rw [int32Operand?] at h
  split at h
  · simp only [Option.bind_eq_bind, Option.bind_eq_some_iff] at h
    obtain ⟨m, hm, node, hnode, h⟩ := h
    obtain rfl := Option.some.inj h
    exact ⟨hm, hnode⟩
  · cases h

theorem exitPattern_of_exitTest? {condition : NodeId} {test : ExitTest}
    (h : g.exitTest? condition = some test) : g.ExitPattern condition test := by
  simp only [exitTest?, Option.bind_eq_bind, Option.bind_eq_some_iff, Prod.exists,
    Option.guard_eq_some'] at h
  obtain ⟨cmp, hcmp, _, hcompare, update, updateNode, hupdate, bound, boundNode, hbound, _,
    hkind, read, readNode, hread, step, stepNode, hstep, k, hk, _, hget, slot, hslot, heq⟩ := h
  obtain rfl := Option.some.inj heq
  obtain ⟨hupdate, hupdateNode⟩ := int32Operand?_eq_some hupdate
  obtain ⟨hbound, _⟩ := int32Operand?_eq_some hbound
  obtain ⟨hread, hreadNode⟩ := int32Operand?_eq_some hread
  obtain ⟨hstep, hstepNode⟩ := int32Operand?_eq_some hstep
  exact ⟨⟨cmp, hcmp, rfl, hcompare, hupdate, hbound⟩,
    updateNode, read, step, hupdateNode, rfl, hkind, hread, hstep,
    ⟨readNode, hreadNode, hget, hslot⟩, stepNode, hstepNode, hk⟩

/-- The condition of a branch: the comparison itself, or its negation. -/
structure ConditionPattern (g : Graph) (branch condition : NodeId) (negated : Bool) : Prop where
  direct : negated = false → g.firstOperand? branch = some condition
  flipped : negated = true → ∃ flip node, g.firstOperand? branch = some flip ∧
    g.node? flip = some node ∧ node.kind = .logicalNot ∧ (node.child 0).node? = some condition

theorem firstOperand?_eq_some (hnode : g.node? n = some node) :
    g.firstOperand? n = some c ↔ (node.child 0).node? = some c := by
  simp [firstOperand?, hnode]

theorem conditionPattern_of_strippedCondition {branch condition : NodeId} {negated : Bool}
    (h : g.strippedCondition branch = .ok (condition, negated)) :
    g.ConditionPattern branch condition negated := by
  rw [strippedCondition] at h
  split at h
  · cases h
  rename_i first hfirst
  obtain ⟨node, hnode, h⟩ := bind_eq_ok h
  rw [Refusal.stopping_eq_ok_iff, node_eq_ok_iff] at hnode
  split at h
  case isTrue hkind =>
    split at h
    · cases h
    rename_i inner hinner
    obtain ⟨rfl, rfl⟩ := Prod.mk.inj (Except.ok.inj h)
    exact ⟨by simp, fun _ => ⟨first, node, hfirst, hnode, hkind, hinner⟩⟩
  case isFalse =>
    obtain ⟨rfl, rfl⟩ := Prod.mk.inj (Except.ok.inj h)
    exact ⟨fun _ => hfirst, by simp⟩

/-- All that a successful search for the variable of a loop has found. -/
structure InductionPattern (g : Graph) (loop : NaturalLoop) (preHeader tail : BlockId)
    (inverse : Bool) (v : InductionVariable) (inverse' : Bool) : Prop where
  found : ∃ branch condition negated test initialStore initial updateStore,
    g.terminal? tail = some branch ∧ g.ConditionPattern branch condition negated ∧
    g.ExitPattern condition test ∧ g.storesTo preHeader v.slot = [initialStore] ∧
    g.firstOperand? initialStore = some initial ∧
    (loop.blocks.flatMap fun b => g.storesTo b v.slot) = [updateStore] ∧
    g.firstOperand? updateStore = some test.update ∧ inverse' = (inverse != negated) ∧
    v = { slot := test.slot, update := test.update, updateKind := test.updateKind
          step := test.step, compare := test.compare
          initial := g.valueSource initial, bound := g.valueSource test.bound }

theorem inductionPattern_of_ok {loop : NaturalLoop} {preHeader tail : BlockId}
    {inverse inverse' : Bool} {v : InductionVariable}
    (h : g.inductionVariable loop preHeader tail inverse = .ok (v, inverse')) :
    g.InductionPattern loop preHeader tail inverse v inverse' := by
  rw [inductionVariable] at h
  split at h
  · cases h
  rename_i branch hbranch
  obtain ⟨⟨condition, negated⟩, hcondition, h⟩ := bind_eq_ok h
  obtain ⟨_, _, h⟩ := bind_eq_ok h
  split at h
  · cases h
  rename_i test htest
  obtain ⟨_, _, h⟩ := bind_eq_ok h
  split at h
  case h_2 => cases h
  rename_i initialStore hinitialStore
  split at h
  · cases h
  rename_i initial hinitial
  obtain ⟨_, _, h⟩ := bind_eq_ok h
  obtain ⟨_, _, h⟩ := bind_eq_ok h
  split at h
  case h_2 => cases h
  rename_i updateStore hupdateStore
  split at h
  case isFalse => cases h
  rename_i hupdate
  obtain ⟨rfl, rfl⟩ := Prod.mk.inj (Except.ok.inj h)
  exact ⟨branch, condition, negated, test, initialStore, initial, updateStore, hbranch,
    conditionPattern_of_strippedCondition hcondition, exitPattern_of_exitTest? htest,
    hinitialStore, hinitial, hupdateStore, hupdate, rfl, rfl⟩

/-! ## Nodes that see one another -/

theorem isPhi_eq_false (hnode : g.node? n = some node) (hkind : node.kind ≠ .phi) :
    g.isPhi n = false := by
  simp [isPhi, hnode, hkind]

/-- An operand that is no phi stands earlier in the same block. -/
theorem WellFormed.mem_before (hg : g.WellFormed) (hb : g.block? b = some block)
    {before after : List NodeId} (hsplit : block.nodes = before ++ n :: after)
    (hnode : g.node? n = some node) (hc : c ∈ g.operands node) (hphi : g.isPhi c = false) :
    c ∈ before := by
  have hok := hg.block b block hb
  rcases (hok.node before n after hsplit node hnode).visible c hc with hmem | hmem
  · exact hmem
  · have := hok.phis c hmem
    simp [hphi] at this

theorem idxOf_lt_of_mem_before {body before after : List NodeId} (hnodup : body.Nodup)
    (hsplit : body = before ++ n :: after) (hc : c ∈ before) : body.idxOf c < body.idxOf n := by
  subst hsplit
  have hn : n ∉ before := by
    intro hmem
    exact (List.nodup_append.1 hnodup).2.2 n hmem n (List.mem_cons_self ..) rfl
  rw [List.idxOf_append_of_mem hc, List.idxOf_append_of_notMem hn, List.idxOf_cons_self]
  exact Nat.lt_add_right 0 (List.idxOf_lt_length_of_mem hc)

end Graph

namespace Machine

variable {g : Graph} {b : BlockId} {n c : NodeId} {node : Node} {block : Block}
  {body : List NodeId} {last : NodeId} {values : Values} {store store' : Store}

/-! ## The body of a block -/

/-- A block of a well-formed graph, cut before its last node. -/
structure HasBody (g : Graph) (b : BlockId) (block : Block) (body : List NodeId) (last : NodeId) :
    Prop where
  wellFormed : g.WellFormed
  block? : g.block? b = some block
  nodes_eq : block.nodes = body ++ [last]

/-- Such a block, with its body evaluated from `store` on. -/
structure Evaluated (g : Graph) (b : BlockId) (block : Block) (body : List NodeId) (last : NodeId)
    (store : Store) (values : Values) (store' : Store) : Prop extends
    HasBody g b block body last where
  eval : evalBody g b body [] store = some (values, store')

theorem mem_storesTo {l : Local} (hb : g.block? b = some block) :
    n ∈ g.storesTo b l ↔ n ∈ block.nodes ∧ g.isStoreTo l n = true := by
  simp [Graph.storesTo, Graph.nodesOf_eq hb]

theorem not_phi_of_valueSource {y : Int32} (hy : g.valueSource n = .constant y) :
    g.isPhi n = false := by
  rw [Graph.valueSource] at hy
  split at hy
  case h_1 z hz =>
    obtain ⟨node, hnode, hint⟩ := Option.bind_eq_some_iff.1 hz
    refine Graph.isPhi_eq_false hnode fun hkind => ?_
    obtain ⟨constant, hconst, _⟩ := Option.bind_eq_some_iff.1 hint
    rw [Node.constant?] at hconst
    split at hconst
    · simp [hkind, Kind.isConstant] at hconst
    · cases hconst
  case h_2 => cases hy

namespace HasBody

variable (h : HasBody g b block body last)

include h

theorem nodup : body.Nodup := by
  have hnodup := h.wellFormed.nodup b block h.block?
  rw [h.nodes_eq] at hnodup
  exact (List.nodup_append.1 (List.nodup_append.1 hnodup).2.1).1

theorem not_terminal : ∀ n ∈ body, ∃ node, g.node? n = some node ∧ node.kind.isTerminal = false :=
  body_not_terminal h.wellFormed h.block? h.nodes_eq

theorem last_terminal : ∃ node, g.node? last = some node ∧ node.kind.isTerminal = true ∧
    g.admits node.kind node.payload = true ∧ g.terminalNode? b = some (last, node) := by
  obtain ⟨_, last', node, hsplit, hlast, hok, hterm⟩ := h.wellFormed.terminal h.block?
  obtain rfl : last' = last := by
    rw [h.nodes_eq] at hsplit
    simpa using (congrArg List.getLast? hsplit).symm
  exact ⟨node, hlast, by simpa using hok.terminal, hok.admits, hterm⟩

/-- An operand of a node of the body that is no phi is in the body, before the node. -/
theorem operand_mem (hn : n ∈ body) (hnode : g.node? n = some node) (hc : c ∈ g.operands node)
    (hphi : g.isPhi c = false) : c ∈ body ∧ body.idxOf c < body.idxOf n := by
  obtain ⟨before, after, hsplit⟩ := List.append_of_mem hn
  have hnodes : block.nodes = before ++ n :: (after ++ [last]) := by simp [h.nodes_eq, hsplit]
  have hmem : c ∈ before := h.wellFormed.mem_before h.block? hnodes hnode hc hphi
  exact ⟨by simp [hsplit, hmem], Graph.idxOf_lt_of_mem_before h.nodup hsplit hmem⟩

/-- An operand of the last node that is no phi is in the body. -/
theorem operand_mem_last (hlast : g.node? last = some node) (hc : c ∈ g.operands node)
    (hphi : g.isPhi c = false) : c ∈ body :=
  h.wellFormed.mem_before h.block? h.nodes_eq hlast hc hphi

/-- A write of a local is in the body. -/
theorem mem_body_of_isStoreTo {l : Local} (hn : n ∈ block.nodes)
    (hstore : g.isStoreTo l n = true) : n ∈ body := by
  obtain ⟨node, hlast, hterm, _⟩ := h.last_terminal
  rw [h.nodes_eq] at hn
  rcases List.mem_append.1 hn with hn | hn
  · exact hn
  · obtain rfl : n = last := by simpa using hn
    obtain ⟨hkind, _⟩ := (isStoreTo_iff hlast).1 hstore
    simp [hkind, Kind.isTerminal] at hterm

/-- The write of an updated local is in the block of the update. -/
theorem updateStore_mem {loop : NaturalLoop} {l : Local} {s u : NodeId} {updateNode : Node}
    (hstores : (loop.blocks.flatMap fun c => g.storesTo c l) = [s])
    (hoperand : g.firstOperand? s = some u) (hu : u ∈ body) (hnode : g.node? u = some updateNode)
    (hkind : updateNode.kind ≠ .phi) : s ∈ block.nodes ∧ g.isStoreTo l s = true := by
  obtain ⟨c, hc, hs⟩ : ∃ c ∈ loop.blocks, s ∈ g.storesTo c l := by
    rw [← List.mem_flatMap, hstores]
    exact List.mem_singleton_self _
  obtain ⟨other, hother, _⟩ := Graph.mem_nodesOf.1 (List.mem_filter.1 hs).1
  obtain ⟨hmem, hstore⟩ := (mem_storesTo hother).1 hs
  obtain ⟨before, after, hsplit⟩ := List.append_of_mem hmem
  obtain ⟨storeNode, hstoreNode⟩ :=
    Graph.exists_node? (h.wellFormed.exists_node c other hother s (by simp [hmem]))
  have hchild := (Graph.firstOperand?_eq_some hstoreNode).1 hoperand
  have hbefore : u ∈ before := h.wellFormed.mem_before hother hsplit hstoreNode
    (mem_operands_of_child hchild) (Graph.isPhi_eq_false hnode hkind)
  -- the update is listed in one block only
  obtain rfl : c = b := by
    refine h.wellFormed.apart c other b block u hother h.block? ?_ ?_
    · simp [hsplit, hbefore]
    · simp [h.nodes_eq, hu]
  rw [h.block?] at hother
  obtain rfl := Option.some.inj hother
  exact ⟨hmem, hstore⟩

/-- The only write of a local in the loop is the only one in each of its blocks. -/
theorem eq_of_isStoreTo {loop : NaturalLoop} {l : Local} {s : NodeId}
    (hstores : (loop.blocks.flatMap fun c => g.storesTo c l) = [s]) (hb : b ∈ loop.blocks)
    (hn : n ∈ body) (hstore : g.isStoreTo l n = true) : n = s := by
  have hmem : n ∈ loop.blocks.flatMap fun c => g.storesTo c l :=
    List.mem_flatMap.2 ⟨b, hb, (mem_storesTo h.block?).2 ⟨by simp [h.nodes_eq, hn], hstore⟩⟩
  rw [hstores] at hmem
  simpa using hmem

/-- The condition of a branch is in the body. -/
theorem condition_mem {condition : NodeId} {negated : Bool} {conditionNode : Node}
    (hpattern : g.ConditionPattern last condition negated) (hlast : g.node? last = some node)
    (hnode : g.node? condition = some conditionNode) (hkind : conditionNode.kind ≠ .phi) :
    condition ∈ body := by
  have hphi := Graph.isPhi_eq_false hnode hkind
  cases negated with
  | false =>
    have hchild := (Graph.firstOperand?_eq_some hlast).1 (hpattern.direct rfl)
    exact h.operand_mem_last hlast (mem_operands_of_child hchild) hphi
  | true =>
    obtain ⟨flip, flipNode, hflip, hflipNode, hflipKind, hinner⟩ := hpattern.flipped rfl
    have hchild := (Graph.firstOperand?_eq_some hlast).1 hflip
    have hmem := h.operand_mem_last hlast (mem_operands_of_child hchild)
      (Graph.isPhi_eq_false hflipNode (by simp [hflipKind]))
    exact (h.operand_mem hmem hflipNode (mem_operands_of_child hinner) hphi).1

/-- The comparison and the update of an exit test are in the body. -/
theorem exitTest_mem {condition : NodeId} {negated : Bool} {test : Graph.ExitTest}
    (hcondition : g.ConditionPattern last condition negated) (hlast : g.node? last = some node)
    (hexit : g.ExitPattern condition test) :
    condition ∈ body ∧ test.update ∈ body ∧
      ∃ updateNode, g.node? test.update = some updateNode ∧ updateNode.kind ≠ .phi := by
  obtain ⟨cmp, hcmp, _, hcompare, hleft, _⟩ := hexit.compare
  obtain ⟨upd, _, _, hupd, _, hupdate, _⟩ := hexit.update
  have hcmpPhi : cmp.kind ≠ .phi := by
    rintro hk
    simp [hk, Kind.isInductionCompare] at hcompare
  have hupdPhi : upd.kind ≠ .phi := by
    rintro hk
    simp [hk, Kind.isInductionUpdate] at hupdate
  have hcond := h.condition_mem hcondition hlast hcmp hcmpPhi
  exact ⟨hcond, (h.operand_mem hcond hcmp (mem_operands_of_child hleft)
    (Graph.isPhi_eq_false hupd hupdPhi)).1, upd, hupd, hupdPhi⟩

theorem eq_last_of_terminal? {branch : NodeId} (hterminal : g.terminal? b = some branch) :
    branch = last := by
  obtain ⟨_, _, _, _, hterm⟩ := h.last_terminal
  rw [Graph.terminal?, hterm] at hterminal
  simpa using hterminal.symm

/-- The only write of the counter inside the loop stands in the last block. -/
theorem store_mem_tail {loop : NaturalLoop} {preHeader : BlockId} {inverse inverse' : Bool}
    {v : InductionVariable} (hpattern : g.InductionPattern loop preHeader b inverse v inverse') :
    ∃ s ∈ block.nodes, (loop.blocks.flatMap fun c => g.storesTo c v.slot) = [s] := by
  obtain ⟨branch, condition, _, test, _, _, s, hterminal, hcondition, hexit, _, _, hstores,
    hoperand, _, _⟩ := hpattern.found
  obtain rfl := h.eq_last_of_terminal? hterminal
  obtain ⟨node, hlast, _⟩ := h.last_terminal
  obtain ⟨_, hupdate, upd, hupd, hphi⟩ := h.exitTest_mem hcondition hlast hexit
  exact ⟨s, (h.updateStore_mem hstores hoperand hupdate hupd hphi).1, hstores⟩

end HasBody

/-! ## A body that has been evaluated -/

namespace Evaluated

variable (h : Evaluated g b block body last store values store')

include h

/-- A node of the body, what it did, and when. -/
theorem at_node (hn : n ∈ body) (hnode : g.node? n = some node) :
    ∃ before after values₁ store₁ effect store₂ values₂, body = before ++ n :: after ∧
      evalBody g b before [] store = some (values₁, store₁) ∧
      evalNode g b n values store₁ = .ok (effect, store₂) ∧
      values.lookup n = effect.value? ∧
      evalBody g b after values₂ store₂ = some (values, store') := by
  obtain ⟨before, after, hsplit⟩ := List.append_of_mem hn
  have hnodup := h.nodup
  have heval := h.eval
  rw [hsplit] at hnodup heval
  have hnodes : block.nodes = before ++ n :: (after ++ [last]) := by simp [h.nodes_eq, hsplit]
  have hok :=
    (h.wellFormed.block b block h.block?).node before n (after ++ [last]) hnodes node hnode
  have hphis : ∀ c ∈ block.phis, c ∉ before ++ n :: after := by
    intro c hc hmem
    have hall := h.wellFormed.nodup b block h.block?
    rw [h.nodes_eq, hsplit] at hall
    exact (List.nodup_append.1 hall).2.2 c hc c (List.mem_append_left _ hmem) rfl
  obtain ⟨values₁, store₁, effect, store₂, values₂, hbefore, hev, hlookup, hafter⟩ :=
    evalBody_at hnode hnodup (fun c hc => (hok.visible c hc).imp_right (hphis c)) heval
  exact ⟨before, after, values₁, store₁, effect, store₂, values₂, hsplit, hbefore, hev, hlookup,
    hafter⟩

/-- The value of a constant. -/
theorem lookup_constant (hn : n ∈ body) (hnode : g.node? n = some node) {y : Int32}
    (hy : node.int32? = some y) : values.lookup n = some (.int32 y) := by
  obtain ⟨_, _, _, _, effect, _, _, _, _, hev, hlookup, _⟩ := h.at_node hn hnode
  rw [hlookup, evalNode_constant hnode hy hev]
  rfl

/-- A local that is not written keeps its value up to any node. -/
theorem getLocal_before {before after : List NodeId} {values₁ : Values} {store₁ : Store}
    {l : Local} (hsplit : body = before ++ n :: after)
    (hev : evalBody g b before [] store = some (values₁, store₁))
    (hl : ∀ m ∈ before, g.isStoreTo l m = false) : store₁.getLocal l = store.getLocal l :=
  getLocal_evalBody (fun m hm => h.not_terminal m (by simp [hsplit, hm])) hl hev

/-- After a body with a single write of a local, the local holds what was written. -/
theorem getLocal_of_store {l : Local} {s x : NodeId} (hs : s ∈ body)
    (hstore : g.isStoreTo l s = true) (hunique : ∀ m ∈ body, g.isStoreTo l m = true → m = s)
    (hx : g.firstOperand? s = some x) :
    ∃ v, values.lookup x = some v ∧ store'.getLocal l = v := by
  obtain ⟨node, hnode, hterm⟩ := h.not_terminal s hs
  obtain ⟨before, after, _, store₁, effect, store₂, values₂, hsplit, hbefore, hev, _, hafter⟩ :=
    h.at_node hs hnode
  obtain ⟨hkind, hslot⟩ := (isStoreTo_iff hnode).1 hstore
  obtain ⟨v, hv, rfl⟩ :=
    evalNode_setLocal hnode hkind hslot ((Graph.firstOperand?_eq_some hnode).1 hx) hev
  refine ⟨v, hv, ?_⟩
  have hnodup := h.nodup
  rw [hsplit, List.nodup_append, List.nodup_cons] at hnodup
  have hno : ∀ m ∈ after, g.isStoreTo l m = false := by
    intro m hm
    by_contra hne
    have heq := hunique m (by simp [hsplit, hm]) (by simpa using hne)
    exact hnodup.2.1.1 (heq ▸ hm)
  rw [getLocal_evalBody (fun m hm => h.not_terminal m (by simp [hsplit, hm])) hno hafter,
    Store.getLocal_setLocal, if_pos rfl]

/-! ## The block before the loop and the last block of it -/

/-- A node that holds a constant has it as its value. -/
theorem lookup_valueSource (hn : n ∈ body) {y : Int32} (hy : g.valueSource n = .constant y) :
    values.lookup n = some (.int32 y) := by
  rw [Graph.valueSource] at hy
  split at hy
  case h_1 z hz =>
    obtain ⟨node, hnode, hint⟩ := Option.bind_eq_some_iff.1 hz
    obtain rfl : z = y := by simpa using hy
    exact h.lookup_constant hn hnode hint
  case h_2 => cases hy

/-- **The initial value.**  The block before a loop whose counter starts with a constant leaves the
constant in the counter. -/
theorem getLocal_preHeader {loop : NaturalLoop} {tail : BlockId} {inverse inverse' : Bool}
    {v : InductionVariable} {x : Int32}
    (hpattern : g.InductionPattern loop b tail inverse v inverse')
    (hinitial : v.initial = .constant x) : store'.getLocal v.slot = .int32 x := by
  obtain ⟨_, _, _, _, initialStore, initial, _, _, _, _, hstores, hoperand, _, _, _, hv⟩ :=
    hpattern.found
  have hsource : g.valueSource initial = .constant x := by
    rw [hv] at hinitial
    exact hinitial
  have hstore : initialStore ∈ block.nodes ∧ g.isStoreTo v.slot initialStore = true := by
    rw [← mem_storesTo h.block?, hstores]
    exact List.mem_singleton_self _
  have hmem := h.mem_body_of_isStoreTo hstore.1 hstore.2
  obtain ⟨storeNode, hstoreNode, _⟩ := h.not_terminal initialStore hmem
  have hchild := (Graph.firstOperand?_eq_some hstoreNode).1 hoperand
  have hinit : initial ∈ body :=
    (h.operand_mem hmem hstoreNode (mem_operands_of_child hchild)
      (not_phi_of_valueSource hsource)).1
  have hunique : ∀ m ∈ body, g.isStoreTo v.slot m = true → m = initialStore := by
    intro m hm hms
    have hmem' : m ∈ g.storesTo b v.slot :=
      (mem_storesTo h.block?).2 ⟨by simp [h.nodes_eq, hm], hms⟩
    rw [hstores] at hmem'
    simpa using hmem'
  obtain ⟨w, hw, hlocal⟩ := h.getLocal_of_store hmem hstore.2 hunique hoperand
  rw [hlocal]
  rw [h.lookup_valueSource hinit hsource] at hw
  exact (Option.some.inj hw).symm

/-- The value of the condition of a branch. -/
theorem operand_condition {condition : NodeId} {negated truth : Bool}
    (hpattern : g.ConditionPattern last condition negated) (hlast : g.node? last = some node)
    (hvalue : values.lookup condition = some (.boolean truth)) :
    ∃ v, operand values last node 0 = .ok v ∧ v.isTruthy = (truth != negated) := by
  cases negated with
  | false =>
    have hchild := (Graph.firstOperand?_eq_some hlast).1 (hpattern.direct rfl)
    exact ⟨_, operand_of_lookup hchild hvalue, by simp [Value.isTruthy]⟩
  | true =>
    obtain ⟨flip, flipNode, hflip, hflipNode, hkind, hinner⟩ := hpattern.flipped rfl
    have hchild := (Graph.firstOperand?_eq_some hlast).1 hflip
    have hmem := h.operand_mem_last hlast (mem_operands_of_child hchild)
      (Graph.isPhi_eq_false hflipNode (by simp [hkind]))
    obtain ⟨_, _, _, _, effect, _, _, _, _, hev, hlookup, _⟩ := h.at_node hmem hflipNode
    obtain ⟨w, hw, rfl⟩ := evalNode_not hflipNode hkind hinner hev
    rw [hvalue] at hw
    obtain rfl := Option.some.inj hw
    exact ⟨_, operand_of_lookup hchild hlookup, by simp [Value.isTruthy]⟩

/-- A read of a local before its only write sees what the local held at the start. -/
theorem lookup_read {l : Local} {r s : NodeId} (hr : r ∈ body) (hnode : g.node? r = some node)
    (hget : node.kind = .getLocal) (hslot : node.slot? = some l)
    (hunique : ∀ m ∈ body, g.isStoreTo l m = true → m = s) (hlt : body.idxOf r < body.idxOf s) :
    values.lookup r = some (store.getLocal l) := by
  obtain ⟨before, after, _, store₁, effect, _, _, hsplit, hbefore, hev, hlookup, _⟩ :=
    h.at_node hr hnode
  have hno : ∀ m ∈ before, g.isStoreTo l m = false := by
    intro m hm
    by_contra hne
    obtain rfl := hunique m (by simp [hsplit, hm]) (by simpa using hne)
    have := Graph.idxOf_lt_of_mem_before h.nodup hsplit hm
    omega
  rw [hlookup, evalNode_getLocal hnode hget hslot hev, h.getLocal_before hsplit hbefore hno]
  rfl

/-- The update of an exit test steps what the counter held at the start, if the update is what the
only write of the counter writes. -/
theorem lookup_update {condition s : NodeId} {test : Graph.ExitTest} {v : InductionVariable}
    {x : Int32} (hexit : g.ExitPattern condition test) (hslotEq : test.slot = v.slot)
    (hupdEq : test.updateKind = v.updateKind) (hstepEq : test.step = v.step)
    (hu : test.update ∈ body) (hs : s ∈ body)
    (hunique : ∀ m ∈ body, g.isStoreTo v.slot m = true → m = s)
    (hoperand : g.firstOperand? s = some test.update) (hx : store.getLocal v.slot = .int32 x) :
    ∃ z, (v.apply (.ofInt32 x)).value? = some z ∧ values.lookup test.update = some (.int32 z) := by
  obtain ⟨upd, read, step, hupd, hupdKind, hupdate, hupd0, hupd1, ⟨readNode, hread, hget, hslot⟩,
    stepNode, hstep, hint⟩ := hexit.update
  rw [hslotEq] at hslot
  rw [hupdEq] at hupdKind
  rw [hstepEq] at hint
  have hupdPhi : upd.kind ≠ .phi := by
    rintro hk
    simp [hk, Kind.isInductionUpdate] at hupdate
  -- the counter is read before the update, and the update comes before the write
  obtain ⟨hreadMem, hreadLt⟩ := h.operand_mem hu hupd (mem_operands_of_child hupd0)
    (Graph.isPhi_eq_false hread (by simp [hget]))
  obtain ⟨sNode, hsNode, _⟩ := h.not_terminal s hs
  have hsLt := (h.operand_mem hs hsNode
    (mem_operands_of_child ((Graph.firstOperand?_eq_some hsNode).1 hoperand))
    (Graph.isPhi_eq_false hupd hupdPhi)).2
  have hreadValue := h.lookup_read hreadMem hread hget hslot hunique (hreadLt.trans hsLt)
  rw [hx] at hreadValue
  have hstepSource : g.valueSource step = .constant v.step := by
    simp [Graph.valueSource, hstep, hint]
  have hstepMem := (h.operand_mem hu hupd (mem_operands_of_child hupd1)
    (not_phi_of_valueSource hstepSource)).1
  obtain ⟨_, _, _, _, effect, _, _, _, _, hev, hlookup, _⟩ := h.at_node hu hupd
  obtain ⟨z, hz, rfl⟩ := evalNode_update hupd hupdKind hupdate hupd0 hupd1 hreadValue
    (h.lookup_valueSource hstepMem hstepSource) hev
  exact ⟨z, hz, hlookup⟩

/-- **One turn of the counter.**  The last block of a loop steps the counter as the induction
variable says, and goes on by the slot that the comparison of the new value with the bound, or its
negation, selects. -/
theorem decision_tail {loop : NaturalLoop} {preHeader : BlockId} {inverse inverse' : Bool}
    {v : InductionVariable} {x y : Int32}
    (hpattern : g.InductionPattern loop preHeader b inverse v inverse') (hb : b ∈ loop.blocks)
    (hlast : g.node? last = some node) (hbranch : node.kind = .branch)
    (hx : store.getLocal v.slot = .int32 x) (hy : v.bound = .constant y) :
    ∃ z, (v.apply (.ofInt32 x)).value? = some z ∧ store'.getLocal v.slot = .int32 z ∧
      decision g values last node =
        some (.slot (if v.test z y != (inverse != inverse') then 0 else 1)) := by
  obtain ⟨branch, condition, negated, test, _, _, s, hterminal, hcondition, hexit, _, _, hstores,
    hoperand, hinverse, hv⟩ := hpattern.found
  obtain ⟨cmp, hcmp, hcmpKind, hcompare, hleft, hright⟩ := hexit.compare
  have hsource : g.valueSource test.bound = .constant y := by
    rw [hv] at hy
    exact hy
  have hcmpEq : test.compare = v.compare := by rw [hv]
  rw [hcmpEq] at hcmpKind
  obtain rfl := h.eq_last_of_terminal? hterminal
  obtain ⟨hcond, hupdMem, upd, hupd, hupdPhi⟩ := h.exitTest_mem hcondition hlast hexit
  obtain ⟨hsNodes, hsStore⟩ := h.updateStore_mem hstores hoperand hupdMem hupd hupdPhi
  have hsMem := h.mem_body_of_isStoreTo hsNodes hsStore
  have hunique : ∀ m ∈ body, g.isStoreTo v.slot m = true → m = s :=
    fun m hm => h.eq_of_isStoreTo hstores hb hm
  -- the comparison and the write see one and the same new value
  obtain ⟨z, hz, hupdValue⟩ := h.lookup_update hexit (by rw [hv]) (by rw [hv]) (by rw [hv]) hupdMem
    hsMem hunique hoperand hx
  refine ⟨z, hz, ?_, ?_⟩
  · obtain ⟨w, hw, hlocal⟩ := h.getLocal_of_store hsMem hsStore hunique hoperand
    rw [hlocal]
    rw [hupdValue] at hw
    exact (Option.some.inj hw).symm
  · have hbound := (h.operand_mem hcond hcmp (mem_operands_of_child hright)
      (not_phi_of_valueSource hsource)).1
    obtain ⟨_, _, _, _, effect, _, _, _, _, hev, hlookup, _⟩ := h.at_node hcond hcmp
    have heffect := evalNode_compare hcmp hcmpKind hcompare hleft hright hupdValue
      (h.lookup_valueSource hbound hsource) hev
    rw [heffect] at hlookup
    obtain ⟨w, hw, htruth⟩ := h.operand_condition hcondition hlast hlookup
    have hnegated : (inverse != inverse') = negated := by
      rw [hinverse]
      cases inverse <;> cases negated <;> rfl
    simp only [decision, hbranch, hw, hnegated]
    simp [Except.toOption, htruth]

end Evaluated

end Machine

end Unroller
