import Mathlib.Tactic
import Unroller.Proofs.Graph.SameCode

/-!
# Graphs that only grow

Copying appends nodes, operands and records, and changes none that is there already.

* `Extends`, `Grows`: an array, or everything but the blocks of a graph, is only appended to;
  `Roomier`: positions are only added, whatever they hold.
* `Grows.sameCode`, `Grows.blockOk`: a block that stays does the same and stays in order.
-/

namespace Unroller

/-! ## Arrays -/

/-- An array with more behind it. -/
structure Extends {α : Type} (xs ys : Array α) : Prop where
  size_le : xs.size ≤ ys.size
  getElem? : ∀ i < xs.size, ys[i]? = xs[i]?

namespace Extends

variable {α : Type} {xs ys zs : Array α}

theorem refl (xs : Array α) : Extends xs xs := ⟨Nat.le_refl _, fun _ _ => rfl⟩

theorem of_getElem? (h : ∀ (i : Nat) x, xs[i]? = some x → ys[i]? = some x) : Extends xs ys := by
  have hsame : ∀ i < xs.size, ys[i]? = xs[i]? := by
    intro i hi
    rw [Array.getElem?_eq_getElem hi]
    exact h i _ (Array.getElem?_eq_getElem hi)
  refine ⟨?_, hsame⟩
  by_contra hlt
  have hlt := Nat.lt_of_not_le hlt
  have hnone : xs[ys.size]? = none := by rw [← hsame _ hlt, Array.getElem?_size]
  exact absurd hlt (Nat.not_lt.2 (Array.getElem?_eq_none_iff.1 hnone))

theorem trans (h₁ : Extends xs ys) (h₂ : Extends ys zs) : Extends xs zs := by
  refine ⟨h₁.size_le.trans h₂.size_le, fun i hi => ?_⟩
  rw [h₂.getElem? i (hi.trans_le h₁.size_le), h₁.getElem? i hi]

theorem append (xs ys : Array α) : Extends xs (xs ++ ys) := by
  refine ⟨by simp, fun i hi => ?_⟩
  rw [Array.getElem?_append_left hi]

theorem push (xs : Array α) (x : α) : Extends xs (xs.push x) := by
  refine ⟨by simp, fun i hi => ?_⟩
  rw [Array.getElem?_push, if_neg (Nat.ne_of_lt hi)]

theorem getElem?_of_some (h : Extends xs ys) {i : Nat} {x : α} (hx : xs[i]? = some x) :
    ys[i]? = some x := by
  rw [h.getElem? i (Array.getElem?_eq_some_iff.1 hx).1, hx]

end Extends

namespace Graph

variable {g h k : Graph} {b c : BlockId} {n : NodeId} {node : Node} {block : Block}

/-! ## Growing graphs -/

/-- Nodes, operands and records are only appended to. -/
structure Grows (g h : Graph) : Prop where
  nodes : Extends g.nodes h.nodes
  varArgs : Extends g.varArgs h.varArgs
  branches : Extends g.branches h.branches
  switches : Extends g.switches h.switches
  callLayouts : Extends g.callLayouts h.callLayouts
  loadLayouts : Extends g.loadLayouts h.loadLayouts
  form : h.form = g.form

/-- No position is lost. -/
structure Roomier (g h : Graph) : Prop where
  nodes : g.nodes.size ≤ h.nodes.size
  branches : g.branches.size ≤ h.branches.size
  switches : g.switches.size ≤ h.switches.size
  callLayouts : g.callLayouts.size ≤ h.callLayouts.size
  loadLayouts : g.loadLayouts.size ≤ h.loadLayouts.size

namespace Roomier

theorem refl (g : Graph) : Roomier g g := ⟨le_rfl, le_rfl, le_rfl, le_rfl, le_rfl⟩

theorem trans (h₁ : Roomier g h) (h₂ : Roomier h k) : Roomier g k :=
  ⟨h₁.nodes.trans h₂.nodes, h₁.branches.trans h₂.branches, h₁.switches.trans h₂.switches,
    h₁.callLayouts.trans h₂.callLayouts, h₁.loadLayouts.trans h₂.loadLayouts⟩

theorem admits (hr : Roomier g h) {kind : Kind} {payload : Payload}
    (ha : g.admits kind payload = true) : h.admits kind payload = true := by
  have h₁ := hr.branches
  have h₂ := hr.switches
  have h₃ := hr.callLayouts
  have h₄ := hr.loadLayouts
  cases payload <;> cases kind <;> simp [Graph.admits, Kind.hasLocal, Kind.isConstant] at ha ⊢ <;>
    omega

end Roomier

/-- The record of targets that a payload names exists. -/
def RecordIn (g : Graph) : Payload → Prop
  | .branch record => record < g.branches.size
  | .switch record => record < g.switches.size
  | _ => True

theorem recordIn_of_admits {kind : Kind} {payload : Payload}
    (ha : g.admits kind payload = true) : g.RecordIn payload := by
  cases payload <;> cases kind <;> simp [admits, RecordIn] at ha ⊢ <;> exact ha

theorem inRange_of_extends (hx : Extends g.varArgs h.varArgs) {c : Children} (hc : g.InRange c) :
    h.InRange c := by
  cases c with
  | fixed a b c => trivial
  | variadic first count => exact le_trans hc hx.size_le

theorem edgesOf_of_extends (hx : Extends g.varArgs h.varArgs) {c : Children} (hc : g.InRange c) :
    h.edgesOf c = g.edgesOf c := by
  cases c with
  | fixed a b c => rfl
  | variadic first count =>
    have hle : first + count ≤ g.varArgs.size := hc
    have hle' : first + count ≤ h.varArgs.size := hle.trans hx.size_le
    simp only [edgesOf, varArgRange, if_pos hle, if_pos hle']
    refine congrArg Array.toList (Array.ext_getElem? fun i => ?_)
    simp only [Array.getElem?_extract]
    by_cases hi : i < min (first + count) g.varArgs.size - first
    · have hi' : i < min (first + count) h.varArgs.size - first := by omega
      rw [if_pos hi, if_pos hi', hx.getElem? _ (by omega)]
    · have hi' : ¬ i < min (first + count) h.varArgs.size - first := by omega
      rw [if_neg hi, if_neg hi']

namespace Grows

theorem refl (g : Graph) : Grows g g :=
  ⟨.refl _, .refl _, .refl _, .refl _, .refl _, .refl _, rfl⟩

theorem trans (h₁ : Grows g h) (h₂ : Grows h k) : Grows g k :=
  ⟨h₁.nodes.trans h₂.nodes, h₁.varArgs.trans h₂.varArgs, h₁.branches.trans h₂.branches,
    h₁.switches.trans h₂.switches, h₁.callLayouts.trans h₂.callLayouts,
    h₁.loadLayouts.trans h₂.loadLayouts, h₂.form.trans h₁.form⟩

/-- Blocks do not matter. -/
theorem of_eq (hnodes : h.nodes = g.nodes) (hvar : h.varArgs = g.varArgs)
    (hbranches : h.branches = g.branches) (hswitches : h.switches = g.switches)
    (hcall : h.callLayouts = g.callLayouts) (hload : h.loadLayouts = g.loadLayouts)
    (hform : h.form = g.form) : Grows g h :=
  ⟨hnodes ▸ .refl _, hvar ▸ .refl _, hbranches ▸ .refl _, hswitches ▸ .refl _, hcall ▸ .refl _,
    hload ▸ .refl _, hform⟩

variable (hg : Grows g h)

include hg

theorem node?_of_some (hnode : g.node? n = some node) : h.node? n = some node :=
  hg.nodes.getElem?_of_some hnode

theorem inRange {c : Children} (hc : g.InRange c) : h.InRange c :=
  inRange_of_extends hg.varArgs hc

theorem edgesOf_eq {c : Children} (hc : g.InRange c) : h.edgesOf c = g.edgesOf c :=
  edgesOf_of_extends hg.varArgs hc

theorem operands_eq (hc : g.InRange node.children) : h.operands node = g.operands node := by
  rw [operands, operands, hg.edgesOf_eq hc]

/-- What a block lists stays as it is. -/
theorem node?_of_mem (hw : g.WellFormed) (hb : g.block? b = some block)
    (hn : n ∈ block.phis ++ block.nodes) : h.node? n = g.node? n := by
  obtain ⟨node, hnode⟩ := exists_node? (hw.exists_node b block hb n hn)
  rw [hnode, hg.node?_of_some hnode]

theorem roomier : Roomier g h :=
  ⟨hg.nodes.size_le, hg.branches.size_le, hg.switches.size_le, hg.callLayouts.size_le,
    hg.loadLayouts.size_le⟩

theorem admits {kind : Kind} {payload : Payload} (ha : g.admits kind payload = true) :
    h.admits kind payload = true :=
  hg.roomier.admits ha

theorem slotTarget?_eq {payload : Payload} (hp : g.RecordIn payload) (slot : Nat) :
    h.slotTarget? payload slot = g.slotTarget? payload slot := by
  cases payload <;> simp only [slotTarget?]
  · rw [hg.branches.getElem? _ hp]
  · rw [hg.switches.getElem? _ hp]

theorem slotCount_eq {payload : Payload} (hp : g.RecordIn payload) :
    h.slotCount payload = g.slotCount payload := by
  cases payload <;> simp only [slotCount]
  rw [hg.switches.getElem? _ hp]

theorem switchValues_eq {payload : Payload} (hp : g.RecordIn payload) :
    h.switchValues payload = g.switchValues payload := by
  cases payload <;> simp only [switchValues]
  rw [hg.switches.getElem? _ hp]

/-- The nodes of a block do the same in the grown graph. -/
theorem blockImage (hw : g.WellFormed) (hb : g.block? b = some block) :
    BlockImage g block h block id := by
  refine ⟨by simp, fun _ _ _ _ h => h, ?_⟩
  intro n hn node hnode
  obtain ⟨before, after, hsplit⟩ := List.append_of_mem hn
  have hok := (hw.block b block hb).node before n after hsplit node hnode
  refine ⟨node, hg.node?_of_some hnode, rfl, rfl, rfl,
    hg.switchValues_eq (recordIn_of_admits hok.admits), .inr fun i => by simp, .inr ?_⟩
  rw [hg.operands_eq hok.inRange]
  simp

/-- A block that stays is the same in the grown graph. -/
theorem sameCode (hw : g.WellFormed) (hb : g.block? b = some block)
    (hb' : h.block? b = some block) : SameCode g h b := by
  obtain ⟨body, last, node, hsplit, hlast, hok, hterm⟩ := hw.terminal hb
  have hrecord := recordIn_of_admits hok.admits
  have hterm' : h.terminalNode? b = some (last, node) :=
    terminalNode?_eq_some_iff.2 ⟨block, hb', by simp [hsplit], hg.node?_of_some hlast,
      by simpa using hok.terminal⟩
  refine ⟨⟨block, block, hb, hb', hg.blockImage hw hb, rfl⟩, fun slot => ?_⟩
  rw [successor?, successor?, hterm, hterm']
  exact hg.slotTarget?_eq hrecord slot

/-- A block that stays is in order in the grown graph. -/
theorem blockOk (hw : g.WellFormed) (hb : g.block? b = some block) (hb' : h.block? b = some block)
    (hlive : ∀ d, g.isLive d = true → h.isLive d = true)
    (hlisted : ∀ n ∈ block.phis, ∀ node, g.node? n = some node → ∀ c ∈ g.operands node,
      ∃ d other, h.block? d = some other ∧ c ∈ other.phis ++ other.nodes) :
    h.BlockOk b block := by
  have hok := hw.block b block hb
  have hsame := hg.sameCode hw hb hb'
  refine
    { phis := ?phis
      nodes := ?nodes
      ne_nil := hok.ne_nil
      node := ?node
      phi := ?phi
      pad := hok.pad
      successor := ?successor }
  case phis =>
    intro n hn
    rw [isPhi, hg.node?_of_mem hw hb (List.mem_append_left _ hn)]
    exact hok.phis n hn
  case nodes =>
    intro n hn
    rw [isPhi, hg.node?_of_mem hw hb (List.mem_append_right _ hn)]
    exact hok.nodes n hn
  case node =>
    intro before n after hsplit node hnode
    rw [hg.node?_of_mem hw hb (by simp [hsplit])] at hnode
    have hnodeOk := hok.node before n after hsplit node hnode
    refine ⟨hnodeOk.terminal, hg.admits hnodeOk.admits, hg.inRange hnodeOk.inRange, ?_⟩
    rw [hg.operands_eq hnodeOk.inRange]
    exact hnodeOk.visible
  case phi =>
    intro n hn node hnode
    rw [hg.node?_of_mem hw hb (List.mem_append_left _ hn)] at hnode
    have hrange := (hok.phi n hn node hnode).inRange
    refine ⟨hg.inRange hrange, ?_⟩
    rw [hg.operands_eq hrange]
    exact hlisted n hn node hnode
  case successor =>
    intro slot hslot
    obtain ⟨body, last, node, hsplit, hlast, hlastOk, hterm⟩ := hw.terminal hb
    have hterm' : h.terminalNode? b = some (last, node) :=
      terminalNode?_eq_some_iff.2 ⟨block, hb', by simp [hsplit], hg.node?_of_some hlast,
        by simpa using hlastOk.terminal⟩
    have hcount : h.successorCount b = g.successorCount b := by
      rw [successorCount, successorCount, hterm, hterm']
      exact hg.slotCount_eq (recordIn_of_admits hlastOk.admits)
    rw [hcount] at hslot
    obtain ⟨t, ht, htlive⟩ := hok.successor slot hslot
    exact ⟨t, by rw [hsame.successor, ht], hlive t htlive⟩

end Grows

end Graph

end Unroller
