import Mathlib.Tactic
import Unroller.Proofs.Execution.Visit
import Unroller.Loop.Induction

/-!
# Values and locals during a visit

In a well-formed block every node is evaluated once and only looks at nodes before it, so what a
node computed can be read off the values at the end of the body (`evalBody_at`).  A local keeps its
value over nodes that do not write it, and over a body with a single write it takes the value
written.

* `evalNode_constant`, `evalNode_getLocal`, `evalNode_not`, `evalNode_update`, `evalNode_compare`:
  the values of the nodes that an exit test is made of.
* `evalNode_setLocal`, `getLocal_evalBody`: the locals.
-/

namespace Unroller

/-- A local that was just written, and all others. -/
theorem Store.getLocal_setLocal (s : Store) (l k : Local) (v : Value) :
    (s.setLocal l v).getLocal k = if l = k then v else s.getLocal k := by
  simp only [getLocal, setLocal, writeGrowing, getD_setIfInBounds, Array.size_append,
    Array.size_replicate]
  by_cases hk : l = k
  · subst hk
    simp
    omega
  · simp only [hk, false_and, if_false, Array.getD_eq_getD_getElem?, Array.getElem?_append,
      Array.getElem?_replicate]
    by_cases hlt : k < s.locals.size
    · simp [hlt]
    · by_cases hlt' : k - s.locals.size < l + 1 - s.locals.size <;> simp [hlt, hlt']

/-- The value that an effect gives a node. -/
def Effect.value? : Effect → Option Value
  | .value v => some v
  | _ => none

namespace Machine

variable {g : Graph} {b : BlockId} {n m : NodeId} {node : Node} {values values' : Values}
  {store store' : Store} {block : Block}

/-! ## Only the operands matter -/

theorem mem_operands_of_child {i : Nat} {c : NodeId} (h : (node.child i).node? = some c) :
    c ∈ g.operands node := by
  rw [Graph.operands, List.mem_filterMap]
  cases hc : node.children with
  | fixed e₀ e₁ e₂ =>
    rw [Node.child, hc] at h
    match i with
    | 0 => exact ⟨e₀, by simp [Graph.edgesOf], h⟩
    | 1 => exact ⟨e₁, by simp [Graph.edgesOf], h⟩
    | 2 => exact ⟨e₂, by simp [Graph.edgesOf], h⟩
    | k + 3 => simp [Children.get, Edge.empty] at h
  | variadic first count =>
    rw [Node.child, hc] at h
    simp [Children.get, Edge.empty] at h

theorem operand_congr (h : ∀ c ∈ g.operands node, values'.lookup c = values.lookup c) :
    operand values' n node = operand values n node := by
  funext i
  rw [operand, operand]
  cases hc : (node.child i).node? with
  | none => rfl
  | some c => simp only [h c (mem_operands_of_child hc)]

theorem mapM_congr {ε α β : Type} {f f' : α → Except ε β} {xs : List α}
    (h : ∀ x ∈ xs, f x = f' x) : xs.mapM f = xs.mapM f' := by
  induction xs with
  | nil => rfl
  | cons x xs ih =>
    rw [List.mapM_cons, List.mapM_cons, h x (List.mem_cons_self ..),
      ih fun y hy => h y (List.mem_cons_of_mem _ hy)]

theorem evalNode_congr (hnode : g.node? n = some node)
    (h : ∀ c ∈ g.operands node, values'.lookup c = values.lookup c) :
    evalNode g b n values' store = evalNode g b n values store := by
  have hop := operand_congr (n := n) h
  have hint : intOperand values' n node = intOperand values n node := by
    funext i
    rw [intOperand, intOperand, hop]
  have hel : elements g values' n node = elements g values n node := by
    rw [elements, elements]
    exact mapM_congr fun c hc => by rw [h c hc]
  simp only [evalNode, hnode, evalOther, hop, hint, hel]

/-! ## Values at the end of a body -/

theorem evalBody_append (xs ys : List NodeId) (values : Values) (store : Store) :
    evalBody g b (xs ++ ys) values store =
      (evalBody g b xs values store).bind fun out => evalBody g b ys out.1 out.2 := by
  induction xs generalizing values store with
  | nil => rfl
  | cons x xs ih =>
    simp only [List.cons_append, evalBody]
    split <;> first | exact ih _ _ | rfl

/-- The values after a node. -/
def record (n : NodeId) (effect : Effect) (values : Values) : Values :=
  match effect with
  | .value v => (n, v) :: values
  | _ => values

theorem lookup_record_self (hn : values.lookup n = none) (effect : Effect) :
    (record n effect values).lookup n = effect.value? := by
  cases effect <;> simp [record, Effect.value?, hn]

theorem lookup_record_of_ne (hm : m ≠ n) (effect : Effect) :
    (record n effect values).lookup m = values.lookup m := by
  have hbeq : (m == n) = false := beq_false_of_ne hm
  cases effect <;> simp [record, List.lookup_cons, hbeq]

theorem evalBody_cons {rest : List NodeId} {out : Values × Store}
    (h : evalBody g b (n :: rest) values store = some out) :
    ∃ effect store₁, evalNode g b n values store = .ok (effect, store₁) ∧
      (effect = .quiet ∨ ∃ v, effect = .value v) ∧
      evalBody g b rest (record n effect values) store₁ = some out := by
  rw [evalBody] at h
  split at h
  case h_1 v store₁ hev => exact ⟨.value v, store₁, hev, .inr ⟨v, rfl⟩, h⟩
  case h_2 store₁ hev => exact ⟨.quiet, store₁, hev, .inl rfl, h⟩
  case h_3 => cases h

theorem lookup_evalBody {nodes : List NodeId}
    (h : evalBody g b nodes values store = some (values', store')) (hm : m ∉ nodes) :
    values'.lookup m = values.lookup m := by
  induction nodes generalizing values store with
  | nil =>
    obtain ⟨rfl, rfl⟩ := Prod.mk.inj (Option.some.inj h)
    rfl
  | cons x nodes ih =>
    obtain ⟨hne, hm⟩ : m ≠ x ∧ m ∉ nodes := by simpa using hm
    obtain ⟨effect, store₁, _, _, h⟩ := evalBody_cons h
    rw [ih h hm, lookup_record_of_ne hne]

/-- **What a node computed** can be read off the values at the end of the body: it is evaluated
once, after the nodes before it, and the values it looks at do not change any more. -/
theorem evalBody_at {before after : List NodeId} (hnode : g.node? n = some node)
    (hnodup : (before ++ n :: after).Nodup)
    (hvisible : ∀ c ∈ g.operands node, c ∈ before ∨ c ∉ before ++ n :: after)
    (h : evalBody g b (before ++ n :: after) [] store = some (values', store')) :
    ∃ values₁ store₁ effect store₂ values₂,
      evalBody g b before [] store = some (values₁, store₁) ∧
      evalNode g b n values' store₁ = .ok (effect, store₂) ∧
      values'.lookup n = effect.value? ∧
      evalBody g b after values₂ store₂ = some (values', store') := by
  rw [evalBody_append] at h
  obtain ⟨⟨values₁, store₁⟩, hbefore, h⟩ := Option.bind_eq_some_iff.1 h
  obtain ⟨effect, store₂, hev, _, hafter⟩ := evalBody_cons h
  rw [List.nodup_append, List.nodup_cons] at hnodup
  obtain ⟨_, ⟨hnafter, _⟩, hdisj⟩ := hnodup
  have hnbefore : n ∉ before := fun hmem => hdisj n hmem n (List.mem_cons_self ..) rfl
  refine ⟨values₁, store₁, effect, store₂, _, hbefore, ?_, ?_, hafter⟩
  · rw [← hev]
    refine evalNode_congr hnode fun c hc => ?_
    have hcn : c ≠ n ∧ c ∉ after := by
      rcases hvisible c hc with hmem | hmem
      · exact ⟨fun heq => hnbefore (heq ▸ hmem),
          fun hmem' => hdisj c hmem c (List.mem_cons_of_mem _ hmem') rfl⟩
      · simp only [List.mem_append, List.mem_cons, not_or] at hmem
        exact hmem.2
    rw [lookup_evalBody hafter hcn.2, lookup_record_of_ne hcn.1]
  · rw [lookup_evalBody hafter hnafter, lookup_record_self]
    rw [lookup_evalBody hbefore hnbefore]
    rfl

/-! ## Locals -/

theorem getLocal_plain {operand : Except RunFault Value} {effect : Effect} {l : Local}
    (h : Plain node operand store effect store')
    (hl : ¬ (node.kind = .setLocal ∧ node.slot? = some l)) :
    store'.getLocal l = store.getLocal l := by
  rcases h.locals with heq | ⟨k, v, hkind, hslot, _, rfl⟩
  · rw [Store.getLocal, heq, Store.getLocal]
  · rw [Store.getLocal_setLocal, if_neg]
    rintro rfl
    exact hl ⟨hkind, hslot⟩

theorem isStoreTo_iff (hnode : g.node? n = some node) {l : Local} :
    g.isStoreTo l n = true ↔ node.kind = .setLocal ∧ node.slot? = some l := by
  simp [Graph.isStoreTo, hnode]

/-- A local keeps its value over nodes that do not write it. -/
theorem getLocal_evalBody {nodes : List NodeId} {l : Local}
    (hterm : ∀ n ∈ nodes, ∃ node, g.node? n = some node ∧ node.kind.isTerminal = false)
    (hl : ∀ n ∈ nodes, g.isStoreTo l n = false)
    (h : evalBody g b nodes values store = some (values', store')) :
    store'.getLocal l = store.getLocal l := by
  induction nodes generalizing values store with
  | nil =>
    obtain ⟨rfl, rfl⟩ := Prod.mk.inj (Option.some.inj h)
    rfl
  | cons x nodes ih =>
    obtain ⟨effect, store₁, hev, _, h⟩ := evalBody_cons h
    obtain ⟨node, hnode, hterm'⟩ := hterm x (List.mem_cons_self ..)
    rw [ih (fun n hn => hterm n (List.mem_cons_of_mem _ hn))
      (fun n hn => hl n (List.mem_cons_of_mem _ hn)) h]
    refine getLocal_plain (plain_evalNode hnode hterm' hev) ?_
    rw [← isStoreTo_iff hnode, hl x (List.mem_cons_self ..)]
    simp

/-! ## The nodes of an exit test -/

theorem operand_eq_ok {i : Nat} {v : Value} (h : operand values n node i = .ok v) :
    ∃ c, (node.child i).node? = some c ∧ values.lookup c = some v := by
  rw [operand] at h
  split at h
  case h_1 => cases h
  case h_2 c hc =>
    split at h
    case h_1 w hw => exact ⟨c, hc, hw.trans (congrArg some (Except.ok.inj h))⟩
    case h_2 => cases h

theorem operand_of_lookup {i : Nat} {c : NodeId} {v : Value} (hc : (node.child i).node? = some c)
    (hv : values.lookup c = some v) : operand values n node i = .ok v := by
  simp [operand, hc, hv]

theorem intOperand_of_lookup {i : Nat} {c : NodeId} {x : Int32}
    (hc : (node.child i).node? = some c) (hv : values.lookup c = some (.int32 x)) :
    intOperand values n node i = .ok x := by
  rw [intOperand, operand_of_lookup hc hv]
  rfl

theorem evalNode_constant {y : Int32} {effect : Effect} (hnode : g.node? n = some node)
    (hy : node.int32? = some y) (h : evalNode g b n values store = .ok (effect, store')) :
    effect = .value (.int32 y) := by
  obtain ⟨constant, hconst, hint⟩ := Option.bind_eq_some_iff.1 hy
  obtain rfl : constant = .int32 y := by
    cases constant <;> simp [Constant.int32?] at hint
    rw [hint]
  have hkind : node.kind.isConstant = true := by
    by_contra hne
    simp only [Node.constant?, hne] at hconst
    split at hconst <;> simp at hconst
  simp only [evalNode, hnode] at h
  cases hk : node.kind <;> simp [hk, Kind.isConstant] at hkind
  case jsConstant =>
    simp only [hk, binary?, evalOther, constantValue, hconst] at h
    cases h
    rfl
  case doubleConstant =>
    simp [hk, binary?, evalOther, Kind.isBookkeeping, Kind.isZeroCost] at h
  case int52Constant =>
    simp [hk, binary?, evalOther, Kind.isBookkeeping, Kind.isZeroCost] at h

theorem evalNode_getLocal {l : Local} {effect : Effect} (hnode : g.node? n = some node)
    (hkind : node.kind = .getLocal) (hl : node.slot? = some l)
    (h : evalNode g b n values store = .ok (effect, store')) :
    effect = .value (store.getLocal l) := by
  simp only [evalNode, hnode, hkind, binary?, evalOther, hl] at h
  cases h
  rfl

theorem evalNode_setLocal {l : Local} {c : NodeId} {effect : Effect} (hnode : g.node? n = some node)
    (hkind : node.kind = .setLocal) (hl : node.slot? = some l)
    (hc : (node.child 0).node? = some c)
    (h : evalNode g b n values store = .ok (effect, store')) :
    ∃ v, values.lookup c = some v ∧ store' = store.setLocal l v := by
  simp only [evalNode, hnode, hkind, binary?, evalOther, hl] at h
  obtain ⟨v, hv, h⟩ := bind_eq_ok h
  obtain ⟨c', hc', hlookup⟩ := operand_eq_ok hv
  rw [hc] at hc'
  obtain rfl := Option.some.inj hc'
  cases h
  exact ⟨v, hlookup, rfl⟩

theorem evalNode_not {c : NodeId} {effect : Effect} (hnode : g.node? n = some node)
    (hkind : node.kind = .logicalNot) (hc : (node.child 0).node? = some c)
    (h : evalNode g b n values store = .ok (effect, store')) :
    ∃ v, values.lookup c = some v ∧ effect = .value (.boolean !v.isTruthy) := by
  simp only [evalNode, hnode, hkind, binary?, evalOther] at h
  obtain ⟨v, hv, h⟩ := bind_eq_ok h
  obtain ⟨c', hc', hlookup⟩ := operand_eq_ok hv
  rw [hc] at hc'
  obtain rfl := Option.some.inj hc'
  cases h
  exact ⟨v, hlookup, rfl⟩

/-- An update of a counter computes what the induction variable does, and faults where that
overflows. -/
theorem evalNode_update {v : InductionVariable} {c d : NodeId} {x : Int32} {effect : Effect}
    (hnode : g.node? n = some node) (hkind : node.kind = v.updateKind)
    (hupdate : node.kind.isInductionUpdate = true) (hc : (node.child 0).node? = some c)
    (hd : (node.child 1).node? = some d) (hx : values.lookup c = some (.int32 x))
    (hstep : values.lookup d = some (.int32 v.step))
    (h : evalNode g b n values store = .ok (effect, store')) :
    ∃ y, (v.apply (.ofInt32 x)).value? = some y ∧ effect = .value (.int32 y) := by
  have hop : ∃ op : Int32 → Int32 → Option Int32, binary? node.kind = some (.checked op) ∧
      (v.apply (.ofInt32 x)).value? = op x v.step := by
    rw [InductionVariable.apply, ← hkind]
    cases hk : node.kind <;> simp [hk, Kind.isInductionUpdate] at hupdate
    all_goals exact ⟨_, rfl, rfl⟩
  obtain ⟨op, hbinary, happly⟩ := hop
  simp only [evalNode, hnode, hbinary, intOperand_of_lookup hc hx, intOperand_of_lookup hd hstep,
    Binary.apply] at h
  rw [happly]
  cases hres : op x v.step with
  | none => simp [hres, orOverflow, bind, Except.bind] at h
  | some y =>
    simp only [bind, Except.bind, orOverflow, hres] at h
    cases h
    exact ⟨y, rfl, rfl⟩

/-- A comparison of a counter with a bound computes what the induction variable does. -/
theorem evalNode_compare {v : InductionVariable} {c d : NodeId} {x y : Int32} {effect : Effect}
    (hnode : g.node? n = some node) (hkind : node.kind = v.compare)
    (hcompare : node.kind.isInductionCompare = true) (hc : (node.child 0).node? = some c)
    (hd : (node.child 1).node? = some d) (hx : values.lookup c = some (.int32 x))
    (hy : values.lookup d = some (.int32 y))
    (h : evalNode g b n values store = .ok (effect, store')) :
    effect = .value (.boolean (v.test x y)) := by
  by_cases heq : node.kind = .compareEq
  · simp only [evalNode, hnode, heq, binary?, evalOther, operand_of_lookup hc hx,
      operand_of_lookup hd hy] at h
    cases h
    have hbeq : (Value.int32 x == Value.int32 y) = (x == y) := by
      rw [Bool.eq_iff_iff]
      simp
    rw [InductionVariable.test, ← hkind, heq, hbeq]
  · have hop : binary? node.kind = some (.test fun x y => v.test x y) := by
      cases hk : node.kind <;> simp [hk, Kind.isInductionCompare] at hcompare heq
      all_goals
        simp only [binary?, InductionVariable.test, ← hkind, hk]
    simp only [evalNode, hnode, hop, intOperand_of_lookup hc hx, intOperand_of_lookup hd hy,
      Binary.apply] at h
    cases h
    rfl

end Machine

end Unroller
