import Mathlib.Tactic
import Unroller.Proofs.Graph.Growth

/-!
# Copies of nodes

A copy of a node has the node's kind, origin and prediction; its operands are renamed, and a record
is one of its own.

* `Record`, `record?`: the record that a payload names, of whatever sort.
* `PayloadCopy`: the payload of a copy is the same, or names a new record with the same contents.
* `CopyOf`: a node that is the copy of another one; `CopyOf.nodeImage`: it does the same.
* `CopyOf.grow`: it stays a copy while the graph grows.
-/

namespace Unroller

/-! ## Records -/

/-- The contents of a record. -/
inductive Record where
  | branch (targets : BranchRecord)
  | switch (table : SwitchRecord)
  | callVarargs (layout : CallVarargs)
  | loadVarargs (layout : LoadVarargs)

namespace Record

/-- The block that a slot of a record names. -/
def target? : Record → Nat → Option BlockId
  | .branch r, slot => (r.target? slot).map Target.block
  | .switch r, slot => (r.target? slot).map Target.block
  | _, _ => none

/-- The number of slots of a record. -/
def slotCount : Record → Nat
  | .branch _ => 2
  | .switch r => r.cases.length + 1
  | _ => 0

/-- The values that a record tells apart. -/
def switchValues : Record → Option (List Int32)
  | .switch r => some (r.cases.map SwitchCase.value)
  | _ => none

end Record

namespace Payload

/-- The sort of record that a payload names. -/
def shape? : Payload → Option RecordShape
  | .branch _ => some .branchTargets
  | .switch _ => some .switchTable
  | .callVarargs _ => some .callVarargs
  | .loadVarargs _ => some .loadVarargs
  | _ => none

/-- Whether a payload names a record. -/
def isRecord (p : Payload) : Bool := p.shape?.isSome

theorem slot?_of_isRecord {p : Payload} (hp : p.isRecord = true) : p.slot? = none := by
  cases p <;> simp [isRecord, shape?, slot?] at hp ⊢

end Payload

theorem Node.constant?_of_isRecord {node : Node} (hp : node.payload.isRecord = true) :
    node.constant? = none := by
  rw [Node.constant?]
  split
  case h_1 value heq => simp [heq, Payload.isRecord, Payload.shape?] at hp
  case h_2 => rfl

namespace Graph

/-- The record that a payload names. -/
def record? (g : Graph) : Payload → Option Record
  | .branch r => (g.branches[r]?).map .branch
  | .switch r => (g.switches[r]?).map .switch
  | .callVarargs r => (g.callLayouts[r]?).map .callVarargs
  | .loadVarargs r => (g.loadLayouts[r]?).map .loadVarargs
  | _ => none

variable {g h k : Graph} {node image : Node} {rename : NodeId → NodeId} {p q : Payload}
  {r : Record}

theorem isRecord_of_record? (hr : g.record? p = some r) : p.isRecord = true := by
  cases p <;> simp [record?, Payload.isRecord, Payload.shape?] at hr ⊢

theorem record?_of_not_isRecord (hp : p.isRecord = false) : g.record? p = none := by
  cases p <;> simp [record?, Payload.isRecord, Payload.shape?] at hp ⊢

theorem slotTarget?_of_record? (hr : g.record? p = some r) (slot : Nat) :
    g.slotTarget? p slot = r.target? slot := by
  cases p <;> simp only [record?, Option.map_eq_some_iff, reduceCtorEq] at hr
  all_goals
    obtain ⟨data, hdata, rfl⟩ := hr
    simp [slotTarget?, hdata, Record.target?]

theorem slotCount_of_record? (hr : g.record? p = some r) : g.slotCount p = r.slotCount := by
  cases p <;> simp only [record?, Option.map_eq_some_iff, reduceCtorEq] at hr
  all_goals
    obtain ⟨data, hdata, rfl⟩ := hr
    simp [slotCount, hdata, Record.slotCount]

theorem switchValues_of_record? (hr : g.record? p = some r) :
    g.switchValues p = r.switchValues := by
  cases p <;> simp only [record?, Option.map_eq_some_iff, reduceCtorEq] at hr
  all_goals
    obtain ⟨data, hdata, rfl⟩ := hr
    simp [switchValues, hdata, Record.switchValues]

/-- A payload that names no record says the same in every graph. -/
theorem slotTarget?_of_not_isRecord (hp : p.isRecord = false) (slot : Nat) :
    h.slotTarget? p slot = g.slotTarget? p slot := by
  cases p <;> simp [Payload.isRecord, Payload.shape?, slotTarget?] at hp ⊢

theorem slotCount_of_not_isRecord (hp : p.isRecord = false) : h.slotCount p = g.slotCount p := by
  cases p <;> simp [Payload.isRecord, Payload.shape?, slotCount] at hp ⊢

theorem switchValues_of_not_isRecord (hp : p.isRecord = false) :
    h.switchValues p = g.switchValues p := by
  cases p <;> simp [Payload.isRecord, Payload.shape?, switchValues] at hp ⊢

/-- The record of an admitted payload exists. -/
theorem exists_record?_of_admits {kind : Kind} (ha : g.admits kind p = true)
    (hp : p.isRecord = true) : ∃ r, g.record? p = some r := by
  cases p <;> simp [Payload.isRecord, Payload.shape?] at hp
  all_goals
    cases kind <;> simp only [admits, decide_eq_true_eq, Bool.false_eq_true] at ha
    all_goals exact ⟨_, by rw [record?, Array.getElem?_eq_getElem ha]; rfl⟩

theorem Grows.record?_of_some (hg : Grows g h) (hr : g.record? p = some r) :
    h.record? p = some r := by
  cases p <;> simp only [record?, Option.map_eq_some_iff, reduceCtorEq] at hr ⊢
  all_goals obtain ⟨data, hdata, rfl⟩ := hr
  · exact ⟨data, hg.branches.getElem?_of_some hdata, rfl⟩
  · exact ⟨data, hg.switches.getElem?_of_some hdata, rfl⟩
  · exact ⟨data, hg.callLayouts.getElem?_of_some hdata, rfl⟩
  · exact ⟨data, hg.loadLayouts.getElem?_of_some hdata, rfl⟩

/-- A record that does not exist has not existed. -/
theorem Roomier.record?_of_none (hg : Roomier g h) (hp : h.record? p = none) :
    g.record? p = none := by
  cases p <;> simp only [record?, Option.map_eq_none_iff, Array.getElem?_eq_none_iff] at hp ⊢
  · exact hg.branches.trans hp
  · exact hg.switches.trans hp
  · exact hg.callLayouts.trans hp
  · exact hg.loadLayouts.trans hp

theorem Roomier.exists_record? (hg : Roomier g h) (hp : g.record? p = some r) :
    ∃ r', h.record? p = some r' := by
  refine Option.ne_none_iff_exists'.1 fun hnone => ?_
  rw [hg.record?_of_none hnone] at hp
  cases hp

/-! ## Copies of nodes -/

/-- The copy of an edge under a renaming. -/
def renameEdge (rename : NodeId → NodeId) (e : Edge) : Edge :=
  match e.node? with
  | some n => e.withNode (rename n)
  | none => .empty

@[simp] theorem node?_renameEdge (rename : NodeId → NodeId) (e : Edge) :
    (renameEdge rename e).node? = e.node?.map rename := by
  rw [renameEdge]
  cases h : e.node? <;> rfl

theorem operands_renameEdge (rename : NodeId → NodeId) (es : List Edge) :
    (es.map (renameEdge rename)).filterMap Edge.node? =
      (es.filterMap Edge.node?).map rename := by
  induction es with
  | nil => rfl
  | cons e es ih =>
    simp only [List.map_cons, List.filterMap_cons, node?_renameEdge]
    cases e.node? <;> simp [ih]

/-- The payload of a copy: the same, unless it names a record; then it names one that was not there,
with the same contents. -/
inductive PayloadCopy (g : Graph) (p : Payload) (h : Graph) (q : Payload) : Prop where
  | shared (plain : p.isRecord = false) (same : q = p)
  | own (contents : Record) (source : g.record? p = some contents)
      (copy : h.record? q = some contents) (fresh : g.record? q = none)

namespace PayloadCopy

variable (hp : PayloadCopy g p h q)

include hp

theorem slot?_eq : q.slot? = p.slot? := by
  cases hp with
  | shared _ same => rw [same]
  | own r source copy _ =>
    rw [Payload.slot?_of_isRecord (isRecord_of_record? source),
      Payload.slot?_of_isRecord (isRecord_of_record? copy)]

theorem slotTarget?_eq (slot : Nat) : h.slotTarget? q slot = g.slotTarget? p slot := by
  cases hp with
  | shared plain same => rw [same, slotTarget?_of_not_isRecord plain]
  | own r source copy _ => rw [slotTarget?_of_record? source, slotTarget?_of_record? copy]

theorem slotCount_eq : h.slotCount q = g.slotCount p := by
  cases hp with
  | shared plain same => rw [same, slotCount_of_not_isRecord plain]
  | own r source copy _ => rw [slotCount_of_record? source, slotCount_of_record? copy]

theorem switchValues_eq : h.switchValues q = g.switchValues p := by
  cases hp with
  | shared plain same => rw [same, switchValues_of_not_isRecord plain]
  | own r source copy _ => rw [switchValues_of_record? source, switchValues_of_record? copy]

/-- The record of a copy was not there. -/
theorem record?_eq_none : g.record? q = none := by
  cases hp with
  | shared plain same => rw [same, record?_of_not_isRecord plain]
  | own r _ _ fresh => exact fresh

theorem grow (hg : Grows h k) : PayloadCopy g p k q := by
  cases hp with
  | shared plain same => exact .shared plain same
  | own r source copy fresh => exact .own r source (hg.record?_of_some copy) fresh

end PayloadCopy

/-- The copy of a node: its operands are renamed, and a record is one of its own. -/
structure CopyOf (g : Graph) (node : Node) (h : Graph) (image : Node)
    (rename : NodeId → NodeId) : Prop where
  kind : image.kind = node.kind
  origin : image.origin = node.origin
  prediction : image.prediction = node.prediction
  isVariadic : image.children.isVariadic = node.children.isVariadic
  edges : h.edgesOf image.children = (g.edgesOf node.children).map (renameEdge rename)
  payload : PayloadCopy g node.payload h image.payload
  admits : h.admits image.kind image.payload = true
  inRange : h.InRange image.children

namespace CopyOf

/-- A copy stays a copy while the graph grows. -/
theorem grow (hc : CopyOf g node h image rename) (hg : Grows h k) :
    CopyOf g node k image rename where
  kind := hc.kind
  origin := hc.origin
  prediction := hc.prediction
  isVariadic := hc.isVariadic
  edges := (hg.edgesOf_eq hc.inRange).trans hc.edges
  payload := hc.payload.grow hg
  admits := hg.admits hc.admits
  inRange := hg.inRange hc.inRange

/-- The source may have been in a graph that had less, as long as the node was the same there. -/
theorem shrink (hc : CopyOf h node k image rename)
    (hedges : h.edgesOf node.children = g.edgesOf node.children)
    (hrecord : ∀ r, h.record? node.payload = some r → g.record? node.payload = some r)
    (hnone : ∀ p, h.record? p = none → g.record? p = none) :
    CopyOf g node k image rename := by
  refine ⟨hc.kind, hc.origin, hc.prediction, hc.isVariadic, by rw [hc.edges, hedges], ?_, hc.admits,
    hc.inRange⟩
  cases hc.payload with
  | shared plain same => exact .shared plain same
  | own r source copy fresh => exact .own r (hrecord r source) copy (hnone _ fresh)

theorem shrink_of_grows (hc : CopyOf h node k image rename) (hg : Grows g h)
    (ha : g.admits node.kind node.payload = true) (hr : g.InRange node.children) :
    CopyOf g node k image rename := by
  refine hc.shrink (hg.edgesOf_eq hr) (fun r hsome => ?_) fun p => hg.roomier.record?_of_none
  obtain ⟨r', hr'⟩ := exists_record?_of_admits ha (isRecord_of_record? hsome)
  rw [hg.record?_of_some hr'] at hsome
  rw [hr', hsome]

variable (hc : CopyOf g node h image rename)

include hc

theorem all_operands : h.operands image = (g.operands node).map rename := by
  rw [operands, operands, hc.edges, operands_renameEdge]

theorem child_eq (i : Nat) : image.child i = renameEdge rename (node.child i) := by
  have hedges := hc.edges
  have hvariadic := hc.isVariadic
  rw [Node.child, Node.child]
  cases hnode : node.children with
  | fixed a b c =>
    cases himage : image.children with
    | fixed a' b' c' =>
      simp only [hnode, himage, edgesOf, List.map_cons, List.map_nil, List.cons.injEq,
        and_true] at hedges
      obtain ⟨rfl, rfl, rfl⟩ := hedges
      rcases i with _ | _ | _ | i <;> rfl
    | variadic first count => simp [hnode, himage, Children.isVariadic] at hvariadic
  | variadic first count =>
    cases himage : image.children with
    | fixed a b c => simp [hnode, himage, Children.isVariadic] at hvariadic
    | variadic first' count' => rfl

theorem slotCount : h.slotCount image.payload = g.slotCount node.payload := hc.payload.slotCount_eq

theorem slotTarget (slot : Nat) :
    h.slotTarget? image.payload slot = g.slotTarget? node.payload slot :=
  hc.payload.slotTarget?_eq slot

theorem branch {r : Nat} (hr : image.payload = .branch r) : g.branches.size ≤ r := by
  have hnone := hc.payload.record?_eq_none
  simpa [hr, record?] using hnone

theorem switchTable {r : Nat} (hr : image.payload = .switch r) : g.switches.size ≤ r := by
  have hnone := hc.payload.record?_eq_none
  simpa [hr, record?] using hnone

/-- A copy does the same. -/
theorem nodeImage : NodeImage g node h image rename := by
  refine ⟨hc.kind, hc.payload.slot?_eq, ?_, hc.payload.switchValues_eq, .inr fun i => ?_,
    .inr hc.all_operands⟩
  · cases hc.payload with
    | shared _ same => rw [Node.constant?, Node.constant?, same, hc.kind]
    | own r source copy _ =>
      rw [Node.constant?_of_isRecord (isRecord_of_record? source),
        Node.constant?_of_isRecord (isRecord_of_record? copy)]
  · rw [hc.child_eq, node?_renameEdge]

end CopyOf

end Graph

end Unroller
