import Mathlib.Tactic
import Unroller.Proofs.Graph.WellFormed

/-!
# Images of blocks

A block is the image of another one, in the same graph or in a changed one, when its nodes are those
of the other under a renaming: same kinds and payloads, renamed operands.  Where control leads from
the two blocks is left open.

* `NodeImage`, `BlockImage`: the relation, which leaves open what reads of locals refer to.
* `BlockOk.of_image`: the image of a block that is in order is in order, as far as its phis and
  successors are.
-/

namespace Unroller.Graph

variable {g h : Graph} {b c : BlockId} {n : NodeId} {node image : Node} {block copy : Block}
  {rename : NodeId → NodeId}

/-- The values that a switch tells apart. -/
def switchValues (g : Graph) : Payload → Option (List Int32)
  | .switch record => (g.switches[record]?).map fun r => r.cases.map SwitchCase.value
  | _ => none

/-- A node that does the same as another one, its operands renamed. -/
structure NodeImage (g : Graph) (node : Node) (h : Graph) (image : Node)
    (rename : NodeId → NodeId) : Prop where
  kind : image.kind = node.kind
  slot : image.slot? = node.slot?
  constant : image.constant? = node.constant?
  switch : h.switchValues image.payload = g.switchValues node.payload
  child : node.kind = .getLocal ∨ ∀ i, (image.child i).node? = (node.child i).node?.map rename
  operands : node.kind = .getLocal ∨ h.operands image = (g.operands node).map rename

/-- A block whose nodes are the images of the nodes of another one. -/
structure BlockImage (g : Graph) (block : Block) (h : Graph) (copy : Block)
    (rename : NodeId → NodeId) : Prop where
  nodes : copy.nodes = block.nodes.map rename
  injective : ∀ m ∈ block.phis ++ block.nodes, ∀ n ∈ block.phis ++ block.nodes,
    rename m = rename n → m = n
  node : ∀ n ∈ block.nodes, ∀ node, g.node? n = some node →
    ∃ image, h.node? (rename n) = some image ∧ NodeImage g node h image rename

theorem NodeImage.refl (g : Graph) (node : Node) : NodeImage g node g node id :=
  ⟨rfl, rfl, rfl, rfl, .inr fun i => by simp, .inr (by simp)⟩

/-- What the image of a block in order has to have besides. -/
structure ImageOk (g : Graph) (block : Block) (h : Graph) (c : BlockId) (copy : Block)
    (rename : NodeId → NodeId) : Prop where
  phis : copy.phis = block.phis.map rename
  phi : ∀ n ∈ block.phis, ∃ image, h.node? (rename n) = some image ∧ image.kind = .phi ∧
    h.PhiOk image
  node : ∀ n ∈ block.nodes, ∀ node, g.node? n = some node →
    ∃ image, h.node? (rename n) = some image ∧ image.kind = node.kind ∧
      h.admits image.kind image.payload = true ∧ h.InRange image.children ∧
      ∀ d ∈ h.operands image, ∃ d' ∈ g.operands node, d = rename d'
  nodes : copy.nodes = block.nodes.map rename
  pad : copy.flags.edgePad = block.flags.edgePad
  successor : ∀ slot < h.successorCount c, ∃ t, h.successor? c slot = some t ∧ h.isLive t = true

/-- The image of a block in order is in order. -/
theorem BlockOk.of_image (hok : g.BlockOk b block)
    (hexists : ∀ n ∈ block.nodes, ∃ node, g.node? n = some node)
    (hi : ImageOk g block h c copy rename) : h.BlockOk c copy := by
  refine
    { phis := ?phis
      nodes := ?nodes
      ne_nil := ?ne_nil
      node := ?node
      phi := ?phi
      pad := ?pad
      successor := hi.successor }
  case phis =>
    intro m hm
    rw [hi.phis] at hm
    obtain ⟨n, hn, rfl⟩ := List.mem_map.1 hm
    obtain ⟨image, himage, hkind, _⟩ := hi.phi n hn
    simp [isPhi, himage, hkind]
  case nodes =>
    intro m hm
    rw [hi.nodes] at hm
    obtain ⟨n, hn, rfl⟩ := List.mem_map.1 hm
    obtain ⟨node, hnode⟩ := hexists n hn
    obtain ⟨image, himage, hkind, _⟩ := hi.node n hn node hnode
    have hphi := hok.nodes n hn
    simpa [isPhi, himage, hkind, hnode] using hphi
  case ne_nil =>
    rw [hi.nodes]
    simpa using hok.ne_nil
  case node =>
    intro before m after hsplit image himage
    rw [hi.nodes] at hsplit
    obtain ⟨before', rest', hbefore', rfl, hrest⟩ := List.map_eq_append_iff.1 hsplit
    obtain ⟨n, after', rfl, rfl, rfl⟩ := List.map_eq_cons_iff.1 hrest
    have hn : n ∈ block.nodes := by simp [hbefore']
    obtain ⟨node, hnode⟩ := hexists n hn
    obtain ⟨image', himage', hkind, hadmits, hrange, hvisible⟩ := hi.node n hn node hnode
    rw [himage] at himage'
    obtain rfl := Option.some.inj himage'
    have hnodeOk := hok.node before' n after' hbefore' node hnode
    refine ⟨?_, hadmits, hrange, ?_⟩
    · rw [hkind, hnodeOk.terminal]
      simp
    · intro d hd
      obtain ⟨d', hd', rfl⟩ := hvisible d hd
      rw [hi.phis]
      rcases hnodeOk.visible d' hd' with hmem | hmem
      · exact .inl (List.mem_map_of_mem hmem)
      · exact .inr (List.mem_map_of_mem hmem)
  case phi =>
    intro m hm image himage
    rw [hi.phis] at hm
    obtain ⟨n, hn, rfl⟩ := List.mem_map.1 hm
    obtain ⟨image', himage', _, hphi⟩ := hi.phi n hn
    rw [himage] at himage'
    obtain rfl := Option.some.inj himage'
    exact hphi
  case pad =>
    intro hpad
    rw [hi.nodes, List.length_map]
    exact hok.pad (hi.pad ▸ hpad)

end Unroller.Graph
