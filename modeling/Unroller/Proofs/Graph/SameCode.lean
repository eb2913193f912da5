import Mathlib.Tactic
import Unroller.Proofs.Graph.Image
import Unroller.Proofs.Graph.Reachability

/-!
# Blocks with the same code

Most changes of a graph leave most blocks alone: what they run and where they lead stays as it is,
while phis, predecessor lists and analyses change around them.

* `SameCode g h b`: block `b` runs the same nodes in both graphs and has the same successors.
* `Rephrased g h`: the graphs differ in phis, snapshots and recorded facts only.
* `Rephrased.sameCode`: then every block has the same code.
-/

namespace Unroller.Graph

variable {g h k : Graph} {b c : BlockId} {n : NodeId} {node image : Node} {block copy : Block}
  {rename : NodeId → NodeId}

/-! ## Composing images -/

theorem NodeImage.trans {image' : Node} (hi : NodeImage g node h image rename)
    (hi' : NodeImage h image k image' id) : NodeImage g node k image' rename where
  kind := hi'.kind.trans hi.kind
  slot := hi'.slot.trans hi.slot
  constant := hi'.constant.trans hi.constant
  switch := hi'.switch.trans hi.switch
  child := by
    rcases hi.child with hget | hchild
    · exact .inl hget
    · rcases hi'.child with hget | hchild'
      · exact .inl (hi.kind ▸ hget)
      · exact .inr fun i => by rw [hchild', hchild]; simp
  operands := by
    rcases hi.operands with hget | hoperands
    · exact .inl hget
    · rcases hi'.operands with hget | hoperands'
      · exact .inl (hi.kind ▸ hget)
      · exact .inr (by rw [hoperands', hoperands]; simp)

theorem BlockImage.trans {copy' : Block} (hi : BlockImage g block h copy rename)
    (hi' : BlockImage h copy k copy' id) : BlockImage g block k copy' rename where
  nodes := by rw [hi'.nodes, hi.nodes]; simp
  injective := hi.injective
  node := by
    intro n hn node hnode
    obtain ⟨image, himage, hni⟩ := hi.node n hn node hnode
    have hmem : rename n ∈ copy.nodes := hi.nodes ▸ List.mem_map_of_mem hn
    obtain ⟨image', himage', hni'⟩ := hi'.node _ hmem image himage
    exact ⟨image', himage', hni.trans hni'⟩

/-! ## The same code -/

theorem WellFormed.kind_ne_phi (hg : g.WellFormed) (hb : g.block? b = some block)
    (hn : n ∈ block.nodes) (hnode : g.node? n = some node) : node.kind ≠ .phi := by
  have hphi := (hg.block b block hb).nodes n hn
  simpa [isPhi, hnode] using hphi

theorem WellFormed.kind_eq_phi (hg : g.WellFormed) (hb : g.block? b = some block)
    (hn : n ∈ block.phis) (hnode : g.node? n = some node) : node.kind = .phi := by
  have hphi := (hg.block b block hb).phis n hn
  simpa [isPhi, hnode] using hphi

/-- What a block lists besides phis uses nothing that the block does not list. -/
theorem WellFormed.operand_mem (hg : g.WellFormed) (hb : g.block? b = some block)
    (hn : n ∈ block.nodes) (hnode : g.node? n = some node) {m : NodeId} (hm : m ∈ g.operands node) :
    m ∈ block.phis ++ block.nodes := by
  obtain ⟨before, after, hsplit⟩ := List.append_of_mem hn
  rcases ((hg.block b block hb).node before n after hsplit node hnode).visible m hm with hm | hm
  · exact List.mem_append_right _ (hsplit ▸ List.mem_append_left _ hm)
  · exact List.mem_append_left _ hm

/-- A block that runs the same nodes in two graphs and leads to the same blocks. -/
structure SameCode (g h : Graph) (b : BlockId) : Prop where
  block : ∃ old new, g.block? b = some old ∧ h.block? b = some new ∧ BlockImage g old h new id ∧
    new.flags.edgePad = old.flags.edgePad
  successor : ∀ slot, h.successor? b slot = g.successor? b slot

theorem SameCode.refl (hb : g.isLive b = true) : SameCode g g b := by
  obtain ⟨block, hblock⟩ := isLive_iff.1 hb
  refine ⟨⟨block, block, hblock, hblock, ⟨by simp, fun _ _ _ _ h => h, ?_⟩, rfl⟩, fun _ => rfl⟩
  exact fun n _ node hnode => ⟨node, hnode, NodeImage.refl g node⟩

theorem SameCode.trans (h₁ : SameCode g h b) (h₂ : SameCode h k b) : SameCode g k b := by
  obtain ⟨⟨old, new, hold, hnew, hi, hpad⟩, hsucc⟩ := h₁
  obtain ⟨⟨new', newer, hnew', hnewer, hi', hpad'⟩, hsucc'⟩ := h₂
  rw [hnew] at hnew'
  obtain rfl := Option.some.inj hnew'
  exact ⟨⟨old, newer, hold, hnewer, hi.trans hi', hpad'.trans hpad⟩,
    fun slot => (hsucc' slot).trans (hsucc slot)⟩

theorem SameCode.isLive (hs : SameCode g h b) : h.isLive b = true := by
  obtain ⟨⟨_, new, _, hnew, _⟩, _⟩ := hs
  exact isLive_of_block? hnew

theorem mem_successors_iff_successor? {t : BlockId} :
    t ∈ g.successors b ↔ ∃ slot, g.successor? b slot = some t := by
  constructor
  · intro ht
    obtain ⟨slot, _, hslot⟩ := mem_successors_iff.1 ht
    exact ⟨slot, hslot⟩
  · rintro ⟨slot, hslot⟩
    exact mem_successors_of_successor? hslot

/-! ## Changes of phis and snapshots -/

/-- A node that does the same as before: its operands may only change if it reads a local. -/
structure SameNode (node image : Node) : Prop where
  kind : image.kind = node.kind
  payload : image.payload = node.payload
  children : node.kind = .getLocal ∨ image.children = node.children

theorem SameNode.refl (node : Node) : SameNode node node := ⟨rfl, rfl, .inr rfl⟩

theorem SameNode.trans {image' : Node} (h₁ : SameNode node image) (h₂ : SameNode image image') :
    SameNode node image' where
  kind := h₂.kind.trans h₁.kind
  payload := h₂.payload.trans h₁.payload
  children := by
    rcases h₁.children with hget | heq
    · exact .inl hget
    · rcases h₂.children with hget | heq'
      · exact .inl (h₁.kind ▸ hget)
      · exact .inr (heq'.trans heq)

/-- Which block it is, what it runs, and whether it is a pad. -/
def codeOf (block : Block) : BlockId × List NodeId × Bool :=
  (block.index, block.nodes, block.flags.edgePad)

/-- The recorded reachability of a block. -/
def reachOf (block : Block) : Bool × List BlockId := (block.flags.reachable, block.preds)

/-- Two graphs that differ in phis, snapshots and recorded facts only. -/
structure Rephrased (g h : Graph) : Prop where
  size : h.blocks.size = g.blocks.size
  block : ∀ b, (h.block? b).map codeOf = (g.block? b).map codeOf
  varArgs : h.varArgs = g.varArgs
  branches : h.branches = g.branches
  switches : h.switches = g.switches
  callLayouts : h.callLayouts = g.callLayouts
  loadLayouts : h.loadLayouts = g.loadLayouts
  node : ∀ n node, g.node? n = some node → node.kind ≠ .phi →
    ∃ image, h.node? n = some image ∧ SameNode node image

namespace Rephrased

theorem refl (g : Graph) : Rephrased g g :=
  ⟨rfl, fun _ => rfl, rfl, rfl, rfl, rfl, rfl, fun _ node hnode _ => ⟨node, hnode, .refl node⟩⟩

theorem trans (h₁ : Rephrased g h) (h₂ : Rephrased h k) : Rephrased g k where
  size := h₂.size.trans h₁.size
  block := fun b => (h₂.block b).trans (h₁.block b)
  varArgs := h₂.varArgs.trans h₁.varArgs
  branches := h₂.branches.trans h₁.branches
  switches := h₂.switches.trans h₁.switches
  callLayouts := h₂.callLayouts.trans h₁.callLayouts
  loadLayouts := h₂.loadLayouts.trans h₁.loadLayouts
  node := by
    intro n node hnode hphi
    obtain ⟨image, himage, hs⟩ := h₁.node n node hnode hphi
    obtain ⟨image', himage', hs'⟩ := h₂.node n image himage (hs.kind ▸ hphi)
    exact ⟨image', himage', hs.trans hs'⟩

theorem block?_eq (hr : Rephrased g h) (hb : h.block? b = some copy) :
    ∃ block, g.block? b = some block ∧ copy.nodes = block.nodes ∧
      copy.flags.edgePad = block.flags.edgePad := by
  have hmap := hr.block b
  rw [hb] at hmap
  obtain ⟨block, hblock, heq⟩ := Option.map_eq_some_iff.1 hmap.symm
  simp only [codeOf, Prod.mk.injEq] at heq
  exact ⟨block, hblock, heq.2.1.symm, heq.2.2.symm⟩

theorem numbered (hr : Rephrased g h) (hg : g.Numbered) : h.Numbered := by
  intro b copy hb
  have hmap := hr.block b
  rw [hb] at hmap
  obtain ⟨block, hblock, heq⟩ := Option.map_eq_some_iff.1 hmap.symm
  exact (congrArg Prod.fst heq).symm.trans (hg b block hblock)

theorem isLive_eq (hr : Rephrased g h) (b : BlockId) : h.isLive b = g.isLive b := by
  have hmap := congrArg Option.isSome (hr.block b)
  simpa [isLive] using hmap

theorem operands_eq (hr : Rephrased g h) {image : Node} (hc : image.children = node.children) :
    h.operands image = g.operands node := by
  rw [operands, operands, hc, edgesOf_congr hr.varArgs]

theorem inRange_iff (hr : Rephrased g h) (c : Children) : h.InRange c ↔ g.InRange c :=
  inRange_congr hr.varArgs c

theorem nodeImage (hr : Rephrased g h) (hs : SameNode node image) :
    NodeImage g node h image id where
  kind := hs.kind
  slot := by rw [Node.slot?, Node.slot?, hs.payload]
  constant := by rw [Node.constant?, Node.constant?, hs.payload, hs.kind]
  switch := by
    rw [hs.payload]
    cases node.payload <;> simp [switchValues, hr.switches]
  child := hs.children.imp_right fun hc i => by rw [Node.child, Node.child, hc]; simp
  operands := hs.children.imp_right fun hc => by rw [hr.operands_eq hc]; simp

/-- The last node of a block is the same one, with the same payload. -/
theorem terminalNode?_eq (hr : Rephrased g h) (hg : g.WellFormed) (b : BlockId) :
    (h.terminalNode? b).map (fun e => e.2.payload) =
      (g.terminalNode? b).map fun e => e.2.payload := by
  cases hb : g.block? b with
  | none =>
    have hmap := hr.block b
    rw [hb, Option.map_none, Option.map_eq_none_iff] at hmap
    simp [terminalNode?, hb, hmap]
  | some block =>
    obtain ⟨body, last, node, hsplit, hlast, hok, hterm⟩ := hg.terminal hb
    have hphi : node.kind ≠ .phi := by
      intro hk
      have := hok.terminal
      simp [hk, Kind.isTerminal] at this
    obtain ⟨image, himage, hs⟩ := hr.node last node hlast hphi
    obtain ⟨copy, hcopy, heq⟩ := Option.map_eq_some_iff.1 ((hr.block b).trans (by rw [hb]; rfl))
    simp only [codeOf, Prod.mk.injEq] at heq
    have hterm' : h.terminalNode? b = some (last, image) :=
      terminalNode?_eq_some_iff.2 ⟨copy, hcopy, by rw [heq.2.1, hsplit]; simp, himage, by
        rw [hs.kind]; simpa using hok.terminal⟩
    rw [hterm, hterm']
    simp [hs.payload]

theorem successor?_eq (hr : Rephrased g h) (hg : g.WellFormed) (b : BlockId) (slot : Nat) :
    h.successor? b slot = g.successor? b slot :=
  successor?_congr hr.branches hr.switches (hr.terminalNode?_eq hg b) slot

theorem successorCount_eq (hr : Rephrased g h) (hg : g.WellFormed) (b : BlockId) :
    h.successorCount b = g.successorCount b :=
  successorCount_congr hr.switches (hr.terminalNode?_eq hg b)

theorem successors_eq (hr : Rephrased g h) (hg : g.WellFormed) (b : BlockId) :
    h.successors b = g.successors b :=
  successors_congr hr.branches hr.switches (hr.terminalNode?_eq hg b)

theorem flow_eq (hr : Rephrased g h) (hg : g.WellFormed) : h.flow = g.flow := by
  rw [flow, flow, hr.size]
  congr 1
  funext b
  exact hr.successors_eq hg b

/-- **Blocks keep their code** when only phis and snapshots change. -/
theorem sameCode (hr : Rephrased g h) (hg : g.WellFormed) (hb : g.isLive b = true) :
    SameCode g h b := by
  obtain ⟨block, hblock⟩ := isLive_iff.1 hb
  obtain ⟨copy, hcopy, heq⟩ :=
    Option.map_eq_some_iff.1 ((hr.block b).trans (by rw [hblock]; rfl))
  simp only [codeOf, Prod.mk.injEq] at heq
  refine ⟨⟨block, copy, hblock, hcopy, ⟨by simp [heq.2.1], fun _ _ _ _ h => h, ?_⟩,
    heq.2.2⟩, hr.successor?_eq hg b⟩
  intro n hn node hnode
  obtain ⟨image, himage, hs⟩ := hr.node n node hnode (hg.kind_ne_phi hblock hn hnode)
  exact ⟨image, himage, hr.nodeImage hs⟩

/-- Reachability data that stay the same stay exact. -/
theorem reachExact (hr : Rephrased g h) (hg : g.WellFormed) (he : g.ReachExact)
    (hreach : ∀ b, (h.block? b).map reachOf = (g.block? b).map reachOf) : h.ReachExact := by
  have hold : ∀ b copy, h.block? b = some copy → ∃ block, g.block? b = some block ∧
      copy.flags.reachable = block.flags.reachable ∧ copy.preds = block.preds := by
    intro b copy hb
    have hmap := hreach b
    rw [hb] at hmap
    obtain ⟨block, hblock, heq⟩ := Option.map_eq_some_iff.1 hmap.symm
    simp only [reachOf, Prod.mk.injEq] at heq
    exact ⟨block, hblock, heq.1.symm, heq.2.symm⟩
  refine ⟨?_, ?_, ?_⟩
  all_goals
    intro b copy hb
    obtain ⟨block, hblock, hflag, hpreds⟩ := hold b copy hb
  · rw [hflag, hr.flow_eq hg]
    exact he.reachable_iff b block hblock
  · intro q
    rw [hpreds, hr.flow_eq hg, hr.successors_eq hg]
    exact he.mem_preds_iff b block hblock q
  · rw [hpreds]
    exact he.nodup_preds b block hblock

end Rephrased

end Unroller.Graph
