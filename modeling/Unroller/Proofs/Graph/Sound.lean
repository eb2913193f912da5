import Mathlib.Tactic
import Unroller.Graph.Threading
import Unroller.Proofs.Graph.SameCode

/-!
# Sound graphs

A graph that a transformation works on satisfies more than the search for defects checks.

* `Sound`: it is well-formed, pads jump, only reads of locals use phis, and snapshots and phis refer
  to accesses of locals.
* `Unlinked`: no phi has operands, as in every graph that is not threaded.
* `wellFormed_of_rephrased`, `Sound.of_rephrased`: what changes of phis and snapshots have to see
  to.
* `Recast`: a change of recorded facts only; `Recast.sound`: it keeps a graph sound.
-/

namespace Unroller.Graph

variable {g h : Graph} {b c : BlockId} {n : NodeId} {node image : Node} {block : Block}

/-- The nodes that the snapshots of a block record. -/
def recorded (block : Block) : List NodeId :=
  (block.head.entries ++ block.tail.entries).map Prod.snd

/-- A well-formed graph that keeps the rules of threading. -/
structure Sound (g : Graph) : Prop where
  wellFormed : g.WellFormed
  pad : ∀ b block, g.block? b = some block → block.flags.edgePad = true →
    ∃ n node, block.nodes = [n] ∧ g.node? n = some node ∧ node.kind = .jump
  phi_use : ∀ b block, g.block? b = some block → ∀ n ∈ block.nodes, ∀ node,
    g.node? n = some node → node.kind ≠ .getLocal → ∀ c ∈ g.operands node, c ∉ block.phis
  snapshot : ∀ b block, g.block? b = some block → ∀ n ∈ recorded block,
    n ∈ block.phis ++ block.nodes.dropLast
  phi_operand : ∀ b block, g.block? b = some block → ∀ n ∈ block.phis, ∀ node,
    g.node? n = some node → ∀ c ∈ g.operands node,
      ∃ d other, g.block? d = some other ∧ c ∈ other.phis ++ other.nodes.dropLast

/-- No phi has operands. -/
def Unlinked (g : Graph) : Prop :=
  ∀ b block, g.block? b = some block → ∀ n ∈ block.phis, ∀ node, g.node? n = some node →
    g.operands node = []

/-! ## Changes of phis and snapshots -/

/-- What the phis and snapshots of a graph have to satisfy. -/
structure Phrased (h : Graph) : Prop where
  exists_phi : ∀ b block, h.block? b = some block → ∀ n ∈ block.phis, h.isPhi n = true
  nodup : ∀ b block, h.block? b = some block → block.phis.Nodup
  apart : ∀ b block c other n, h.block? b = some block → h.block? c = some other →
    n ∈ block.phis → n ∈ other.phis → b = c
  phi : ∀ b block, h.block? b = some block → ∀ n ∈ block.phis, ∀ node, h.node? n = some node →
    h.InRange node.children ∧ ∀ c ∈ h.operands node,
      ∃ d other, h.block? d = some other ∧ c ∈ other.phis ++ other.nodes.dropLast
  read : ∀ b block, h.block? b = some block → ∀ n ∈ block.nodes, ∀ node, h.node? n = some node →
    node.kind = .getLocal → h.InRange node.children ∧
      ∀ before after, block.nodes = before ++ n :: after →
        ∀ c ∈ h.operands node, c ∈ before ∨ c ∈ block.phis
  snapshot : ∀ b block, h.block? b = some block → ∀ n ∈ recorded block,
    n ∈ block.phis ++ block.nodes.dropLast

theorem Sound.phrased (hg : g.Sound) : g.Phrased where
  exists_phi := fun b block hb => (hg.wellFormed.block b block hb).phis
  nodup := fun b block hb => (List.nodup_append.1 (hg.wellFormed.nodup b block hb)).1
  apart := fun b block c other n hb hc hn hn' => hg.wellFormed.apart b block c other n hb hc
    (List.mem_append_left _ hn) (List.mem_append_left _ hn')
  phi := fun b block hb n hn node hnode =>
    ⟨((hg.wellFormed.block b block hb).phi n hn node hnode).inRange,
      hg.phi_operand b block hb n hn node hnode⟩
  read := by
    intro b block hb n hn node hnode _
    obtain ⟨before, after, hsplit⟩ := List.append_of_mem hn
    have hok := hg.wellFormed.block b block hb
    exact ⟨(hok.node before n after hsplit node hnode).inRange,
      fun before after hsplit => (hok.node before n after hsplit node hnode).visible⟩
  snapshot := hg.snapshot

theorem lt_of_isPhi (hn : h.isPhi n = true) : n < h.nodes.size := by
  cases hnode : h.node? n with
  | none => simp [isPhi, hnode] at hn
  | some node => exact lt_size_of_node? hnode

/-- Only reads of locals use the phis of their block. -/
def PhisForReads (g : Graph) : Prop :=
  ∀ b block, g.block? b = some block → ∀ n ∈ block.nodes, ∀ node, g.node? n = some node →
    node.kind ≠ .getLocal → ∀ c ∈ g.operands node, c ∉ block.phis

/-- What the phis and the reads of a well-formed graph have to satisfy. -/
structure PhisInOrder (h : Graph) : Prop where
  exists_phi : ∀ b block, h.block? b = some block → ∀ n ∈ block.phis, h.isPhi n = true
  nodup : ∀ b block, h.block? b = some block → block.phis.Nodup
  apart : ∀ b block c other n, h.block? b = some block → h.block? c = some other →
    n ∈ block.phis → n ∈ other.phis → b = c
  phi : ∀ b block, h.block? b = some block → ∀ n ∈ block.phis, ∀ node, h.node? n = some node →
    h.PhiOk node
  read : ∀ b block, h.block? b = some block → ∀ n ∈ block.nodes, ∀ node, h.node? n = some node →
    node.kind = .getLocal → h.InRange node.children ∧
      ∀ before after, block.nodes = before ++ n :: after →
        ∀ c ∈ h.operands node, c ∈ before ∨ c ∈ block.phis

theorem Phrased.phisInOrder (hp : h.Phrased) : h.PhisInOrder where
  exists_phi := hp.exists_phi
  nodup := hp.nodup
  apart := hp.apart
  phi := by
    intro b block hb n hn node hnode
    obtain ⟨hrange, hoperands⟩ := hp.phi b block hb n hn node hnode
    refine ⟨hrange, fun c hc => ?_⟩
    obtain ⟨d, other, hd, hmem⟩ := hoperands c hc
    refine ⟨d, other, hd, List.mem_append.2 ?_⟩
    exact (List.mem_append.1 hmem).imp_right fun h => List.dropLast_subset _ h
  read := hp.read

/-- The node at a position after a change of phis and snapshots. -/
theorem Rephrased.node_of_mem (hr : Rephrased g h) (hg : g.WellFormed)
    (hb : g.block? b = some block)
    (hn : n ∈ block.nodes) (himage : h.node? n = some image) :
    ∃ node, g.node? n = some node ∧ SameNode node image := by
  obtain ⟨node, hnode⟩ :=
    exists_node? (hg.exists_node b block hb n (List.mem_append_right _ hn))
  obtain ⟨image', himage', hs⟩ := hr.node n node hnode (hg.kind_ne_phi hb hn hnode)
  rw [himage] at himage'
  obtain rfl := Option.some.inj himage'
  exact ⟨node, hnode, hs⟩

theorem Rephrased.admits_eq (hr : Rephrased g h) (kind : Kind) (payload : Payload) :
    h.admits kind payload = g.admits kind payload :=
  admits_congr (by rw [hr.branches]) (by rw [hr.switches]) (by rw [hr.callLayouts])
    (by rw [hr.loadLayouts]) kind payload

/-- What a block runs are no phis. -/
theorem Rephrased.not_isPhi (hr : Rephrased g h) (hg : g.WellFormed) (hb : g.block? b = some block)
    (hn : n ∈ block.nodes) : n < h.nodes.size ∧ h.isPhi n = false := by
  obtain ⟨node, hnode⟩ :=
    exists_node? (hg.exists_node b block hb n (List.mem_append_right _ hn))
  have hphi := hg.kind_ne_phi hb hn hnode
  obtain ⟨image, himage, hs⟩ := hr.node n node hnode hphi
  exact ⟨lt_size_of_node? himage, by simp [isPhi, himage, hs.kind, hphi]⟩

/-- A phi is no node that some block runs. -/
theorem Rephrased.notMem_nodes (hr : Rephrased g h) (hg : g.WellFormed) {copy : Block}
    (hb : h.block? b = some copy) (hn : h.isPhi n = true) : n ∉ copy.nodes := by
  intro hmem
  obtain ⟨block, hblock, hnodes, _⟩ := hr.block?_eq hb
  simp [(hr.not_isPhi hg hblock (hnodes ▸ hmem)).2] at hn

section Rephrase

variable (hw : g.WellFormed) (huse : g.PhisForReads) (hr : Rephrased g h) (hp : h.PhisInOrder)

include hw huse hr

/-- A node that is no read of a local keeps its operands, and these are no phis. -/
theorem operands_of_rephrased (hb : g.block? b = some block) {before after : List NodeId}
    (hsplit : block.nodes = before ++ n :: after) (hnode : g.node? n = some node)
    (hs : SameNode node image) (hget : image.kind ≠ .getLocal) :
    ∀ c ∈ h.operands image, c ∈ before := by
  intro c hc
  have hn : n ∈ block.nodes := by simp [hsplit]
  have hne : node.kind ≠ .getLocal := fun hk => hget (hs.kind.trans hk)
  rw [hr.operands_eq (hs.children.resolve_left hne)] at hc
  rcases ((hw.block b block hb).node before n after hsplit node hnode).visible c hc with hmem | hmem
  · exact hmem
  · exact absurd hmem (huse b block hb n hn node hnode hne c hc)

include hp

theorem nodeOk_of_rephrased {copy : Block} (hb : h.block? b = some copy)
    {before after : List NodeId}
    (hsplit : copy.nodes = before ++ n :: after) (himage : h.node? n = some image) :
    h.NodeOk copy before after image := by
  obtain ⟨block, hblock, hnodes, _⟩ := hr.block?_eq hb
  have hn : n ∈ copy.nodes := by simp [hsplit]
  obtain ⟨node, hnode, hs⟩ := hr.node_of_mem hw hblock (hnodes ▸ hn) himage
  have hok := (hw.block b block hblock).node before n after (hnodes ▸ hsplit) node hnode
  refine ⟨by rw [hs.kind]; exact hok.terminal, ?_, ?_, ?_⟩
  · rw [hr.admits_eq, hs.kind, hs.payload]
    exact hok.admits
  · rcases hs.children with hget | hc
    · exact (hp.read b copy hb n hn image himage (hs.kind.trans hget)).1
    · rw [hc]
      exact (hr.inRange_iff _).2 hok.inRange
  · by_cases hget : image.kind = .getLocal
    · exact (hp.read b copy hb n hn image himage hget).2 before after hsplit
    · exact fun c hc =>
        .inl (operands_of_rephrased hw huse hr hblock (hnodes ▸ hsplit) hnode hs hget c hc)

theorem blockOk_of_rephrased {copy : Block} (hb : h.block? b = some copy) : h.BlockOk b copy := by
  obtain ⟨block, hblock, hnodes, hflags⟩ := hr.block?_eq hb
  have hok := hw.block b block hblock
  refine ⟨hp.exists_phi b copy hb, fun n hn => (hr.not_isPhi hw hblock (hnodes ▸ hn)).2,
    by rw [hnodes]; exact hok.ne_nil, ?_, hp.phi b copy hb,
    by rw [hnodes, hflags]; exact hok.pad, ?_⟩
  · intro before n after hsplit image himage
    exact nodeOk_of_rephrased hw huse hr hp hb hsplit himage
  · intro slot hslot
    rw [hr.successorCount_eq hw] at hslot
    obtain ⟨t, ht, hlive⟩ := hok.successor slot hslot
    exact ⟨t, by rw [hr.successor?_eq hw, ht], by rw [hr.isLive_eq, hlive]⟩

/-- **Changes of phis** keep a graph well-formed when the new ones are in order. -/
theorem wellFormed_of_rephrased : h.WellFormed := by
  refine ⟨by rw [hr.isLive_eq]; exact hw.entry_live, hr.numbered hw.numbered, ?_, ?_, ?_,
    fun b copy hb => blockOk_of_rephrased hw huse hr hp hb⟩
  · intro b copy hb n hn
    rcases List.mem_append.1 hn with hn | hn
    · exact lt_of_isPhi (hp.exists_phi b copy hb n hn)
    · obtain ⟨block, hblock, hnodes, _⟩ := hr.block?_eq hb
      exact (hr.not_isPhi hw hblock (hnodes ▸ hn)).1
  · intro b copy hb
    obtain ⟨block, hblock, hnodes, _⟩ := hr.block?_eq hb
    refine List.nodup_append.2 ⟨hp.nodup b copy hb, ?_, ?_⟩
    · rw [hnodes]
      exact (List.nodup_append.1 (hw.nodup b block hblock)).2.1
    · rintro n hn m hm rfl
      exact hr.notMem_nodes hw hb (hp.exists_phi b copy hb n hn) hm
  · intro b copy c other n hb hc hn hn'
    rcases List.mem_append.1 hn with hn | hn <;> rcases List.mem_append.1 hn' with hn' | hn'
    · exact hp.apart b copy c other n hb hc hn hn'
    · exact absurd hn' (hr.notMem_nodes hw hc (hp.exists_phi b copy hb n hn))
    · exact absurd hn (hr.notMem_nodes hw hb (hp.exists_phi c other hc n hn'))
    · obtain ⟨block, hblock, hnodes, _⟩ := hr.block?_eq hb
      obtain ⟨block', hblock', hnodes', _⟩ := hr.block?_eq hc
      exact hw.apart b block c block' n hblock hblock' (List.mem_append_right _ (hnodes ▸ hn))
        (List.mem_append_right _ (hnodes' ▸ hn'))

end Rephrase

/-- **Changes of phis and snapshots** keep a graph sound when the new ones are in order. -/
theorem Sound.of_rephrased (hg : g.Sound) (hr : Rephrased g h) (hp : h.Phrased) : h.Sound := by
  have hw := hg.wellFormed
  refine ⟨wellFormed_of_rephrased hw hg.phi_use hr hp.phisInOrder, ?_, ?_, hp.snapshot,
    fun b block hb n hn node hnode => (hp.phi b block hb n hn node hnode).2⟩
  · intro b copy hb hpad
    obtain ⟨block, hblock, hnodes, hflags⟩ := hr.block?_eq hb
    obtain ⟨n, node, heq, hnode, hkind⟩ := hg.pad b block hblock (hflags ▸ hpad)
    obtain ⟨image, himage, hs⟩ := hr.node n node hnode (by simp [hkind])
    exact ⟨n, image, hnodes.trans heq, himage, hs.kind.trans hkind⟩
  · intro b copy hb n hn image himage hget c hc hmem
    obtain ⟨block, hblock, hnodes, _⟩ := hr.block?_eq hb
    obtain ⟨node, hnode, hs⟩ := hr.node_of_mem hw hblock (hnodes ▸ hn) himage
    obtain ⟨before, after, hsplit⟩ := List.append_of_mem (hnodes ▸ hn)
    have hin := operands_of_rephrased hw hg.phi_use hr hblock hsplit hnode hs hget c hc
    exact hr.notMem_nodes hw hb (hp.exists_phi b copy hb c hmem) (by simp [hnodes, hsplit, hin])

/-! ## Recorded facts -/

/-- What threading has to do with in a block. -/
def phrasing (block : Block) : List NodeId × List NodeId × Snapshot × Snapshot :=
  (block.phis, block.nodes, block.head, block.tail)

/-- Two graphs that differ in recorded facts only: reachability, form, analyses. -/
structure Recast (g h : Graph) : Prop extends Rephrased g h where
  nodes : h.nodes = g.nodes
  phrasing : ∀ b, (h.block? b).map phrasing = (g.block? b).map phrasing

namespace Recast

theorem of_blocks (hnodes : h.nodes = g.nodes) (hblocks : h.blocks = g.blocks)
    (hvar : h.varArgs = g.varArgs) (hbranches : h.branches = g.branches)
    (hswitches : h.switches = g.switches) (hcall : h.callLayouts = g.callLayouts)
    (hload : h.loadLayouts = g.loadLayouts) : Recast g h := by
  have hblock : ∀ b, h.block? b = g.block? b := fun b => by rw [block?, block?, hblocks]
  refine ⟨⟨by rw [hblocks], fun b => by rw [hblock], hvar, hbranches, hswitches, hcall, hload, ?_⟩,
    hnodes, fun b => by rw [hblock]⟩
  intro n node hnode _
  exact ⟨node, by rw [node?, hnodes]; exact hnode, .refl node⟩

theorem withReach (g : Graph) (r : BlockId → Bool) (p : BlockId → List BlockId) :
    Recast g (g.withReach r p) := by
  refine ⟨⟨by simp, ?_, rfl, rfl, rfl, rfl, rfl, fun n node hnode _ => ⟨node, hnode, .refl node⟩⟩,
    rfl, ?_⟩
  all_goals
    intro b
    rw [block?_withReach]
    cases g.block? b <;> rfl

theorem block?_phrasing (hr : Recast g h) (hb : h.block? b = some block) :
    ∃ old, g.block? b = some old ∧ block.phis = old.phis ∧ block.nodes = old.nodes ∧
      block.head = old.head ∧ block.tail = old.tail := by
  have hmap := hr.phrasing b
  rw [hb] at hmap
  obtain ⟨old, hold, heq⟩ := Option.map_eq_some_iff.1 hmap.symm
  simp only [Graph.phrasing, Prod.mk.injEq] at heq
  exact ⟨old, hold, heq.1.symm, heq.2.1.symm, heq.2.2.1.symm, heq.2.2.2.symm⟩

theorem symm (hr : Recast g h) : Recast h g := by
  refine ⟨⟨hr.size.symm, fun b => (hr.block b).symm, hr.varArgs.symm, hr.branches.symm,
    hr.switches.symm, hr.callLayouts.symm, hr.loadLayouts.symm, ?_⟩, hr.nodes.symm,
    fun b => (hr.phrasing b).symm⟩
  intro n node hnode _
  exact ⟨node, by rw [node?, ← hr.nodes]; exact hnode, .refl node⟩

theorem node?_eq (hr : Recast g h) (n : NodeId) : h.node? n = g.node? n := by
  rw [node?, node?, hr.nodes]

theorem operands_same (hr : Recast g h) (node : Node) : h.operands node = g.operands node :=
  hr.operands_eq rfl

theorem phrased (hr : Recast g h) (hp : g.Phrased) : h.Phrased := by
  have hlisted : ∀ c, (∃ d other, g.block? d = some other ∧
      c ∈ other.phis ++ other.nodes.dropLast) → ∃ d other, h.block? d = some other ∧
      c ∈ other.phis ++ other.nodes.dropLast := by
    rintro c ⟨d, other, hd, hmem⟩
    obtain ⟨new, hnew, hphis, hnodes, _⟩ := hr.symm.block?_phrasing hd
    exact ⟨d, new, hnew, by rw [← hphis, ← hnodes]; exact hmem⟩
  refine
    { exists_phi := ?exists_phi
      nodup := ?nodup
      apart := ?apart
      phi := ?phi
      read := ?read
      snapshot := ?snapshot }
  case exists_phi =>
    intro b block hb n hn
    obtain ⟨old, hold, hphis, _⟩ := hr.block?_phrasing hb
    rw [isPhi, hr.node?_eq]
    exact hp.exists_phi b old hold n (hphis ▸ hn)
  case nodup =>
    intro b block hb
    obtain ⟨old, hold, hphis, _⟩ := hr.block?_phrasing hb
    exact hphis ▸ hp.nodup b old hold
  case apart =>
    intro b block c other n hb hc hn hn'
    obtain ⟨old, hold, hphis, _⟩ := hr.block?_phrasing hb
    obtain ⟨old', hold', hphis', _⟩ := hr.block?_phrasing hc
    exact hp.apart b old c old' n hold hold' (hphis ▸ hn) (hphis' ▸ hn')
  case phi =>
    intro b block hb n hn node hnode
    obtain ⟨old, hold, hphis, _⟩ := hr.block?_phrasing hb
    rw [hr.node?_eq] at hnode
    obtain ⟨hrange, hoperands⟩ := hp.phi b old hold n (hphis ▸ hn) node hnode
    refine ⟨(hr.inRange_iff _).2 hrange, fun c hc => hlisted c (hoperands c ?_)⟩
    rwa [hr.operands_same] at hc
  case read =>
    intro b block hb n hn node hnode hget
    obtain ⟨old, hold, hphis, hnodes, _⟩ := hr.block?_phrasing hb
    rw [hr.node?_eq] at hnode
    obtain ⟨hrange, hvisible⟩ := hp.read b old hold n (hnodes ▸ hn) node hnode hget
    refine ⟨(hr.inRange_iff _).2 hrange, ?_⟩
    rw [hr.operands_same, hphis, hnodes]
    exact hvisible
  case snapshot =>
    intro b block hb n hn
    obtain ⟨old, hold, hphis, hnodes, hhead, htail⟩ := hr.block?_phrasing hb
    rw [recorded, hhead, htail] at hn
    rw [hphis, hnodes]
    exact hp.snapshot b old hold n hn

theorem sound (hr : Recast g h) (hg : g.Sound) : h.Sound :=
  hg.of_rephrased hr.toRephrased (hr.phrased hg.phrased)

theorem unlinked (hr : Recast g h) (hg : g.Unlinked) : h.Unlinked := by
  intro b block hb n hn node hnode
  obtain ⟨old, hold, hphis, _⟩ := hr.block?_phrasing hb
  rw [hr.node?_eq] at hnode
  rw [hr.operands_same]
  exact hg b old hold n (hphis ▸ hn) node hnode

theorem resetReachability (hentry : g.isLive entry = true) : Recast g g.resetReachability := by
  rw [resetReachability_eq hentry]
  exact withReach g _ _

end Recast

end Unroller.Graph
