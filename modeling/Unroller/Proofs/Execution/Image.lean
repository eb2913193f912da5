import Mathlib.Tactic
import Unroller.Proofs.Execution.Body
import Unroller.Proofs.Graph.Image

/-!
# Visits of images

What a visit does depends on the kinds, payloads and operands of the nodes, not on their names:
visiting the image of a block does to the store what visiting the block does, and ends in the same
way (`visit_image`).

* `Agrees`: two nodes with the same kind and payload and with the same operand values.
* `toOption_evalNode_of_agrees`: such nodes have the same effect.
* `evalBody_image`: renaming the nodes of a body renames its values.
-/

namespace Unroller.Machine

open Unroller.Graph (NodeImage BlockImage)

theorem toOption_bind {ε α β : Type} (x : Except ε α) (f : α → Except ε β) :
    (x >>= f).toOption = x.toOption.bind fun a => (f a).toOption := by
  cases x <;> rfl

variable {g h : Graph} {b c : BlockId} {n m : NodeId} {node image : Node} {values copies : Values}
  {store : Store} {block copy : Block} {rename : NodeId → NodeId}

/-! ## Nodes -/

/-- Two nodes that agree in all that evaluation looks at. -/
structure Agrees (g : Graph) (values : Values) (n : NodeId) (node : Node) (h : Graph)
    (copies : Values) (m : NodeId) (image : Node) : Prop where
  kind : image.kind = node.kind
  slot : image.slot? = node.slot?
  constant : image.constant? = node.constant?
  operand : node.kind ≠ .getLocal → ∀ i,
    (operand copies m image i).toOption = (operand values n node i).toOption
  elements : node.kind ≠ .getLocal →
    (elements h copies m image).toOption = (elements g values n node).toOption

theorem toOption_intOperand
    (hop : ∀ i, (operand copies m image i).toOption = (operand values n node i).toOption)
    (i : Nat) :
    (intOperand copies m image i).toOption = (intOperand values n node i).toOption := by
  rw [intOperand, intOperand, toOption_bind, toOption_bind, hop]
  congr 1
  funext v
  cases v <;> rfl

theorem toOption_arrayOperand (m n : NodeId) (v : Value) :
    (arrayOperand store m v).toOption = (arrayOperand store n v).toOption := by
  cases v <;> simp only [arrayOperand]
  case array a => split <;> rfl
  all_goals rfl

theorem toOption_orOverflow (m n : NodeId) (v : Option Int32) :
    (orOverflow m v).toOption = (orOverflow n v).toOption := by
  cases v <;> rfl

theorem toOption_ite_error {ε α : Type} (p : Prop) [Decidable p] (e : ε) (x : Except ε α) :
    (if p then .error e else x : Except ε α).toOption = if p then none else x.toOption := by
  split <;> rfl

theorem toOption_constantValue (m n : NodeId) (hconst : image.constant? = node.constant?) :
    (constantValue m image).toOption = (constantValue n node).toOption := by
  rw [constantValue, constantValue, hconst]
  rcases node.constant? with _ | v
  · rfl
  · cases v <;> rfl

theorem toOption_apply (op : Binary) (m n : NodeId) (x y : Int32) :
    (op.apply m x y).toOption = (op.apply n x y).toOption := by
  cases op with
  | checked f => exact toOption_orOverflow m n _
  | total f => rfl
  | test f => rfl

theorem toOption_evalOther_of_agrees (ha : Agrees g values n node h copies m image)
    (hterm : node.kind.isTerminal = false) (hget : node.kind ≠ .getLocal) :
    (evalOther h c m image copies store).toOption =
      (evalOther g b n node values store).toOption := by
  have hop := ha.operand hget
  unfold evalOther
  rw [ha.kind]
  simp only [ha.slot]
  split
  -- the kinds without a fault of their own
  case h_1 => simp only [toOption_bind, toOption_constantValue m n ha.constant]
  case h_4 | h_5 | h_6 | h_7 | h_8 | h_9 | h_10 | h_11 =>
    simp only [toOption_bind, hop, toOption_intOperand hop, ha.elements hget,
      toOption_arrayOperand m n, toOption_orOverflow m n]
  case h_2 hk => exact absurd hk hget
  case h_3 =>
    cases node.slot? with
    | none => rfl
    | some l => simp only [toOption_bind, hop]
  case h_12 | h_13 =>
    simp only [toOption_bind, hop, toOption_intOperand hop, toOption_arrayOperand m n,
      toOption_ite_error]
  case h_14 hk | h_15 hk | h_16 hk | h_17 hk | h_18 hk | h_19 hk =>
    simp [hk, Kind.isTerminal] at hterm
  case h_20 => rfl
  case h_21 => split <;> rfl

theorem toOption_evalNode_of_agrees (b c : BlockId) (store : Store) (hnode : g.node? n = some node)
    (himage : h.node? m = some image) (ha : Agrees g values n node h copies m image)
    (hterm : node.kind.isTerminal = false) :
    (evalNode h c m copies store).toOption = (evalNode g b n values store).toOption := by
  simp only [evalNode, hnode, himage, ha.kind]
  by_cases hget : node.kind = .getLocal
  · simp only [hget, binary?, evalOther, ha.kind, ha.slot]
    cases node.slot? <;> rfl
  · have hop := ha.operand hget
    cases binary? node.kind with
    | some op =>
      simp only [toOption_bind, toOption_intOperand hop, toOption_apply op m n]
    | none => exact toOption_evalOther_of_agrees ha hterm hget

/-! ## Bodies -/

/-- The values under other names. -/
def renameValues (rename : NodeId → NodeId) (values : Values) : Values :=
  values.map fun e => (rename e.1, e.2)

theorem lookup_renameValues {d : NodeId} (hinj : ∀ e ∈ values, rename e.1 = rename d → e.1 = d) :
    (renameValues rename values).lookup (rename d) = values.lookup d := by
  induction values with
  | nil => rfl
  | cons e values ih =>
    obtain ⟨k, v⟩ := e
    have hrest := ih fun e' he' => hinj e' (List.mem_cons_of_mem _ he')
    rw [renameValues] at hrest ⊢
    simp only [List.map_cons, List.lookup_cons]
    by_cases hd : d = k
    · simp [hd]
    · have hne : rename d ≠ rename k :=
        fun heq => hd (hinj (k, v) (List.mem_cons_self ..) heq.symm).symm
      rw [beq_false_of_ne hd, beq_false_of_ne hne, hrest]

/-- The values of renamed nodes are the values of the nodes. -/
theorem mapM_lookup_renameValues {ds : List NodeId} (m : NodeId)
    (hinj : ∀ d ∈ ds, ∀ e ∈ values, rename e.1 = rename d → e.1 = d) :
    ((ds.map rename).mapM fun d => match (renameValues rename values).lookup d with
      | some v => (.ok v : Except RunFault Value)
      | none => .error (.elementWithoutValue m)).toOption =
    (ds.mapM fun d => match values.lookup d with
      | some v => (.ok v : Except RunFault Value)
      | none => .error (.elementWithoutValue n)).toOption := by
  induction ds with
  | nil => rfl
  | cons d ds ih =>
    have hd := lookup_renameValues (hinj d (List.mem_cons_self ..))
    have hrest := ih fun x hx => hinj x (List.mem_cons_of_mem _ hx)
    simp only [List.map_cons, List.mapM_cons, toOption_bind, hrest, hd]
    cases values.lookup d <;> rfl

/-- The image of a node agrees with it, when its operands and the nodes with values are renamed
apart. -/
theorem agrees_of_image (hi : NodeImage g node h image rename)
    (hinj : ∀ d ∈ g.operands node, ∀ e ∈ values, rename e.1 = rename d → e.1 = d) :
    Agrees g values n node h (renameValues rename values) (rename n) image := by
  refine ⟨hi.kind, hi.slot, hi.constant, ?_, ?_⟩
  · intro hget i
    have hchild := hi.child.resolve_left hget i
    rw [operand, operand, hchild]
    cases hd : (node.child i).node? with
    | none => rfl
    | some d =>
      simp only [Option.map_some, lookup_renameValues (hinj d (mem_operands_of_child hd))]
      cases values.lookup d <;> rfl
  · intro hget
    rw [elements, elements, hi.operands.resolve_left hget]
    exact mapM_lookup_renameValues (rename n) hinj

theorem evalBody_cons_eq (n : NodeId) (rest : List NodeId) (values : Values) (store : Store) :
    evalBody g b (n :: rest) values store =
      (evalNode g b n values store).toOption.bind fun out =>
        match out with
        | (.value v, store) => evalBody g b rest ((n, v) :: values) store
        | (.quiet, store) => evalBody g b rest values store
        | _ => none := by
  rw [evalBody]
  cases evalNode g b n values store with
  | error fault => rfl
  | ok out => rcases out with ⟨_ | _ | _ | _, _⟩ <;> rfl

theorem fst_mem_of_evalBody {nodes : List NodeId} {out : Values × Store}
    (hev : evalBody g b nodes values store = some out) :
    ∀ e ∈ out.1, e ∈ values ∨ e.1 ∈ nodes := by
  induction nodes generalizing values store with
  | nil =>
    obtain rfl := Option.some.inj hev
    exact fun e he => .inl he
  | cons n nodes ih =>
    obtain ⟨effect, store₁, _, heffect, hev⟩ := evalBody_cons hev
    intro e he
    rcases ih hev e he with hmem | hmem
    · rcases heffect with rfl | ⟨v, rfl⟩
      · exact .inl hmem
      · rcases List.mem_cons.1 hmem with rfl | hmem
        · exact .inr (List.mem_cons_self ..)
        · exact .inl hmem
    · exact .inr (List.mem_cons_of_mem _ hmem)

/-- Renaming the nodes of a body renames its values and changes nothing else. -/
theorem evalBody_image (hi : BlockImage g block h copy rename) {nodes : List NodeId}
    (hnodes : ∀ n ∈ nodes, n ∈ block.nodes ∧ ∃ node, g.node? n = some node ∧
      node.kind.isTerminal = false ∧ ∀ d ∈ g.operands node, d ∈ block.phis ++ block.nodes)
    (values : Values) (hvalues : ∀ e ∈ values, e.1 ∈ block.nodes) (store : Store) :
    evalBody h c (nodes.map rename) (renameValues rename values) store =
      (evalBody g b nodes values store).map fun out => (renameValues rename out.1, out.2) := by
  induction nodes generalizing values store with
  | nil => rfl
  | cons n nodes ih =>
    obtain ⟨hn, node, hnode, hterm, hoperands⟩ := hnodes n (List.mem_cons_self ..)
    obtain ⟨image, himage, hni⟩ := hi.node n hn node hnode
    have ha : Agrees g values n node h (renameValues rename values) (rename n) image := by
      refine agrees_of_image hni fun d hd e he heq => ?_
      exact hi.injective e.1 (List.mem_append_right _ (hvalues e he)) d (hoperands d hd) heq
    have hrest := fun values' hvalues' store' =>
      ih (fun m hm => hnodes m (List.mem_cons_of_mem _ hm)) values' hvalues' store'
    have hsame := toOption_evalNode_of_agrees b c store hnode himage ha hterm
    rw [List.map_cons, evalBody_cons_eq, evalBody_cons_eq, hsame]
    cases (evalNode g b n values store).toOption with
    | none => rfl
    | some out =>
      rcases out with ⟨v | _ | _ | _, store'⟩
      · refine hrest ((n, v) :: values) ?_ store'
        intro e he
        rcases List.mem_cons.1 he with rfl | he
        · exact hn
        · exact hvalues e he
      · exact hrest values hvalues store'
      · rfl
      · rfl

/-! ## Visits -/

/-- Which case of a switch applies depends on the values of the cases only. -/
theorem slot_eq_switchValues (g : Graph) (p : Payload) (v : Int32) :
    (match p with
      | .switch record =>
        (g.switches[record]?).map fun r => Decision.slot (r.cases.findIdx fun c => c.value == v)
      | _ => none) = (g.switchValues p).map fun vs => .slot (vs.findIdx (· == v)) := by
  cases p with
  | switch record =>
    simp only [Graph.switchValues, Option.map_map, Function.comp_def, List.findIdx_map]
  | _ => rfl

/-- The image of a terminal decides alike. -/
theorem decision_image (hi : NodeImage g node h image rename) (hget : node.kind ≠ .getLocal)
    (hinj : ∀ d ∈ g.operands node, ∀ e ∈ values, rename e.1 = rename d → e.1 = d) :
    decision h (renameValues rename values) (rename n) image = decision g values n node := by
  have ha := agrees_of_image (n := n) hi hinj
  have hop := ha.operand hget
  have hset : (image.child 0).isSet = (node.child 0).isSet := by
    rw [Edge.isSet, Edge.isSet, hi.child.resolve_left hget 0]
    simp
  rw [decision, decision, hi.kind]
  split
  · rfl
  · rw [hop]
  · rw [toOption_intOperand hop]
    refine Option.bind_congr fun v _ => ?_
    have hswitch := slot_eq_switchValues h image.payload v
    rw [hi.switch] at hswitch
    exact hswitch.trans (slot_eq_switchValues g node.payload v).symm
  · rw [hset, hop]
  · rfl

/-- The nodes of a block before its last one use what the block lists. -/
theorem body_usable (hg : g.WellFormed) (hb : g.block? b = some block) {body : List NodeId}
    {last : NodeId} (hsplit : block.nodes = body ++ [last]) :
    ∀ n ∈ body, n ∈ block.nodes ∧ ∃ node, g.node? n = some node ∧
      node.kind.isTerminal = false ∧ ∀ d ∈ g.operands node, d ∈ block.phis ++ block.nodes := by
  intro n hn
  have hmem : n ∈ block.nodes := by simp [hsplit, hn]
  obtain ⟨node, hnode, hnot⟩ := body_not_terminal hg hb hsplit n hn
  obtain ⟨before, after, hn'⟩ := List.append_of_mem hmem
  refine ⟨hmem, node, hnode, hnot, fun d hd => ?_⟩
  rcases ((hg.block b block hb).node before n after hn' node hnode).visible d hd with hd | hd
  · simp [hn', hd]
  · simp [hd]

/-- **Visiting the image of a block** does what visiting the block does. -/
theorem visit_image (hg : g.WellFormed) (hb : g.block? b = some block) (hc : h.block? c = some copy)
    (hi : BlockImage g block h copy rename) (store : Store) :
    visit h c store = visit g b store := by
  obtain ⟨body, last, node, hsplit, hlast, hok, hterm⟩ := hg.terminal hb
  have hmem : ∀ n ∈ body, n ∈ block.nodes := fun n hn => by simp [hsplit, hn]
  obtain ⟨image, himage, hni⟩ := hi.node last (by simp [hsplit]) node hlast
  have hget : node.kind ≠ .getLocal := by
    intro hk
    have := hok.terminal
    simp [hk, Kind.isTerminal] at this
  have heval := evalBody_image (b := b) (c := c) hi (body_usable hg hb hsplit) [] (by simp) store
  simp only [visit, hb, hc, Option.bind_some, evalNodes, hi.nodes, hsplit, List.map_append,
    List.map_cons, List.map_nil, List.getLast?_append, List.getLast?_singleton, Option.some_or,
    List.dropLast_concat, Option.bind_eq_bind, hlast, himage]
  have hnil : renameValues rename [] = [] := rfl
  rw [hnil] at heval
  rw [heval]
  cases hev : evalBody g b body [] store with
  | none => rfl
  | some out =>
    obtain ⟨values, store'⟩ := out
    simp only [Option.map_some, Option.bind_some]
    rw [decision_image hni hget]
    intro d hd e he heq
    refine hi.injective e.1 (List.mem_append_right _ ?_) d ?_ heq
    · exact hmem e.1 ((fst_mem_of_evalBody hev e he).resolve_left (by simp))
    · rcases hok.visible d hd with hd | hd
      · exact List.mem_append_right _ (hmem d hd)
      · exact List.mem_append_left _ hd

/-- It takes as many steps. -/
theorem stepCount?_image (hb : g.block? b = some block) (hc : h.block? c = some copy)
    (hi : BlockImage g block h copy rename) : stepCount? h c = stepCount? g b := by
  simp [stepCount?, hb, hc, hi.nodes]

/-! ## Bodies -/

/-- The store after the nodes of a block but the last; `none` when one of them faults. -/
def runBody (g : Graph) (b : BlockId) (store : Store) : Option Store :=
  (g.block? b).bind fun block => (evalBody g b block.nodes.dropLast [] store).map Prod.snd

theorem runBody_image (hg : g.WellFormed) (hb : g.block? b = some block)
    (hc : h.block? c = some copy) (hi : BlockImage g block h copy rename) (store : Store) :
    runBody h c store = runBody g b store := by
  obtain ⟨body, last, _, hsplit, _⟩ := hg.terminal hb
  have heval := evalBody_image (b := b) (c := c) hi (body_usable hg hb hsplit) [] (by simp) store
  have hnil : renameValues rename [] = [] := rfl
  rw [hnil] at heval
  simp only [runBody, hb, hc, Option.bind_some, hi.nodes, hsplit, List.map_append, List.map_cons,
    List.map_nil, List.dropLast_concat, heval, Option.map_map]
  rfl

/-- A visit that leaves its block does so by a slot that exists. -/
theorem successor_of_visit (hg : g.WellFormed) {slot : Nat} {next : Store}
    (h : visit g b store = some (.leave slot next)) : ∃ t, g.successor? b slot = some t := by
  obtain ⟨block, hb, h⟩ := Option.bind_eq_some_iff.1 h
  obtain ⟨body, last, node, hsplit, hlast, hok, hterm⟩ := hg.terminal hb
  simp only [evalNodes, hsplit, List.getLast?_append, List.getLast?_singleton, Option.some_or,
    List.dropLast_concat, Option.bind_eq_bind, Option.bind_some, hlast] at h
  obtain ⟨⟨values, store'⟩, _, h⟩ := Option.bind_eq_some_iff.1 h
  obtain ⟨d, hd, h⟩ := Option.map_eq_some_iff.1 h
  cases d with
  | ret v => cases h
  | slot i =>
    obtain ⟨rfl, rfl⟩ : i = slot ∧ store' = next := by simpa [Decision.exit] using h
    have hlt := slot_lt_of_decision hok.admits hd
    obtain ⟨t, ht, _⟩ := (hg.block b block hb).successor i (by
      rw [Graph.successorCount, hterm]
      exact hlt)
    exact ⟨t, ht⟩

end Unroller.Machine
