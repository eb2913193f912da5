import Mathlib.Tactic
import Unroller.Cloning
import Unroller.Proofs.Graph.Sound
import Unroller.Proofs.Loop.Shape

/-!
# Cleaning up after a change

A change of a graph is finished by leaving the threaded form, recomputing reachability and killing
what is unreachable.

* `rephrased_dethread`, `Sound.dethread`: leaving the threaded form only changes phis.
* `Killed`: what killing the unreachable blocks leaves.
* `CleanedUp`, `cleanedUp_finalize`: what a graph is like after all of it.
-/

namespace Unroller.Graph

variable {g h : Graph} {b c : BlockId} {n : NodeId} {node : Node} {block : Block}

/-! ## Leaving the threaded form -/

/-- Dropping the operands of some nodes. -/
def dropOperands (g : Graph) (ns : List NodeId) : Graph :=
  ns.foldl (fun g n => g.modifyNode n fun node => { node with children := .none }) g

theorem dropOperands_cons (g : Graph) (m : NodeId) (ns : List NodeId) :
    g.dropOperands (m :: ns) =
      (g.modifyNode m fun node => { node with children := .none }).dropOperands ns := rfl

theorem node?_dropOperands (g : Graph) (ns : List NodeId) (n : NodeId) :
    (g.dropOperands ns).node? n =
      if n ∈ ns then (g.node? n).map fun node => { node with children := .none }
      else g.node? n := by
  induction ns generalizing g with
  | nil => simp [dropOperands]
  | cons m ns ih =>
    rw [dropOperands_cons, ih, node?_modifyNode]
    by_cases hm : m = n
    · subst hm
      cases g.node? m <;> simp
    · have hn : n ≠ m := fun h => hm h.symm
      simp [hm, hn]

theorem dropOperands_eq (g : Graph) (ns : List NodeId) :
    g.dropOperands ns = { g with nodes := (g.dropOperands ns).nodes } := by
  induction ns generalizing g with
  | nil => rfl
  | cons m ns ih =>
    rw [dropOperands_cons, ih]
    rfl

theorem block?_dropOperands (g : Graph) (ns : List NodeId) (b : BlockId) :
    (g.dropOperands ns).block? b = g.block? b := by
  rw [dropOperands_eq]
  rfl

/-- Dropping the operands of phis is a change of phis only. -/
theorem rephrased_dropOperands {ns : List NodeId} (hns : ∀ n ∈ ns, g.isPhi n = true) :
    Rephrased g (g.dropOperands ns) := by
  refine ⟨by rw [dropOperands_eq], fun b => by rw [block?_dropOperands], by rw [dropOperands_eq],
    by rw [dropOperands_eq], by rw [dropOperands_eq], by rw [dropOperands_eq],
    by rw [dropOperands_eq], ?_⟩
  intro n node hnode hphi
  have hn : n ∉ ns := by
    intro hn
    have := hns n hn
    simp [isPhi, hnode, hphi] at this
  exact ⟨node, by simp [node?_dropOperands, hn, hnode], .refl node⟩

theorem operands_none (g : Graph) (node : Node) : g.operands { node with children := .none } = [] :=
  rfl

theorem Sound.dropOperands (hg : g.Sound) {ns : List NodeId} (hns : ∀ n ∈ ns, g.isPhi n = true) :
    (g.dropOperands ns).Sound := by
  have hr := rephrased_dropOperands hns
  have hp := hg.phrased
  -- every node keeps its operands or loses them
  have hnode : ∀ n node, (g.dropOperands ns).node? n = some node → ∃ old, g.node? n = some old ∧
      node.kind = old.kind ∧ (node.children = .none ∨ node.children = old.children) := by
    intro n node h
    rw [node?_dropOperands] at h
    split at h
    · obtain ⟨old, hold, rfl⟩ := Option.map_eq_some_iff.1 h
      exact ⟨old, hold, rfl, .inl rfl⟩
    · exact ⟨node, h, rfl, .inr rfl⟩
  have hoperands : ∀ {node old : Node}, node.children = .none ∨ node.children = old.children →
      (g.InRange old.children → (g.dropOperands ns).InRange node.children) ∧
      ∀ c ∈ (g.dropOperands ns).operands node, c ∈ g.operands old := by
    rintro node old (hc | hc)
    · rw [operands, hc]
      exact ⟨fun _ => trivial, fun c hc => absurd hc (by simp [edgesOf, Children.none, Edge.empty])⟩
    · rw [hr.operands_eq hc, hc]
      exact ⟨(hr.inRange_iff _).2, fun c hc => hc⟩
  refine hg.of_rephrased hr
    { exists_phi := ?exists_phi
      nodup := ?nodup
      apart := ?apart
      phi := ?phi
      read := ?read
      snapshot := ?snapshot }
  all_goals simp only [block?_dropOperands]
  case exists_phi =>
    intro b block hb n hn
    obtain ⟨old, hold⟩ := exists_node? (lt_of_isPhi (hp.exists_phi b block hb n hn))
    have hphi := hp.exists_phi b block hb n hn
    rw [isPhi, node?_dropOperands]
    rw [isPhi] at hphi
    split
    · simpa [hold] using hphi
    · exact hphi
  case nodup => exact hp.nodup
  case apart => exact hp.apart
  case phi =>
    intro b block hb n hn node h
    obtain ⟨old, hold, _, hc⟩ := hnode n node h
    obtain ⟨hrange, hlisted⟩ := hp.phi b block hb n hn old hold
    exact ⟨(hoperands hc).1 hrange, fun c hmem => hlisted c ((hoperands hc).2 c hmem)⟩
  case read =>
    intro b block hb n hn node h hget
    obtain ⟨old, hold, hkind, hc⟩ := hnode n node h
    obtain ⟨hrange, hvisible⟩ := hp.read b block hb n hn old hold (hkind ▸ hget)
    exact ⟨(hoperands hc).1 hrange, fun before after hsplit c hmem =>
      hvisible before after hsplit c ((hoperands hc).2 c hmem)⟩
  case snapshot => exact hp.snapshot

theorem dethread_eq (g : Graph) :
    g.dethread = g ∧ g.form = .loadStore ∨
      g.dethread = { g.dropOperands (g.liveBlocks.flatMap fun e => e.2.phis) with
        form := .loadStore } := by
  rw [dethread]
  cases hf : g.form with
  | loadStore => exact .inl ⟨rfl, rfl⟩
  | threaded => exact .inr rfl

theorem isPhi_of_mem_live (hg : g.Sound) :
    ∀ n ∈ g.liveBlocks.flatMap fun e => e.2.phis, g.isPhi n = true := by
  intro n hn
  obtain ⟨⟨b, block⟩, he, hn⟩ := List.mem_flatMap.1 hn
  exact (hg.wellFormed.block b block (mem_liveBlocks.1 he)).phis n hn

theorem recast_form (g : Graph) (form : Form) : Recast g { g with form := form } :=
  .of_blocks rfl rfl rfl rfl rfl rfl rfl

theorem recast_invalidate (g : Graph) : Recast g g.invalidate :=
  .of_blocks rfl rfl rfl rfl rfl rfl rfl

/-- **Leaving the threaded form** changes phis only. -/
theorem rephrased_dethread (hg : g.Sound) : Rephrased g g.dethread := by
  rcases g.dethread_eq with ⟨heq, _⟩ | heq <;> rw [heq]
  · exact .refl g
  · exact (rephrased_dropOperands (isPhi_of_mem_live hg)).trans (recast_form _ _).toRephrased

theorem Sound.dethread (hg : g.Sound) : g.dethread.Sound := by
  rcases g.dethread_eq with ⟨heq, _⟩ | heq <;> rw [heq]
  · exact hg
  · exact (recast_form _ _).sound (hg.dropOperands (isPhi_of_mem_live hg))

theorem form_dethread (g : Graph) : g.dethread.form = .loadStore := by
  rcases g.dethread_eq with ⟨heq, hf⟩ | heq <;> rw [heq]
  exact hf

theorem unlinked_dethread (hg : g.form = .loadStore → g.Unlinked) : g.dethread.Unlinked := by
  rcases g.dethread_eq with ⟨heq, hf⟩ | heq <;> rw [heq]
  · exact hg hf
  · refine (recast_form _ _).unlinked ?_
    intro b block hb n hn node hnode
    rw [block?_dropOperands] at hb
    have hmem : n ∈ g.liveBlocks.flatMap fun e => e.2.phis :=
      List.mem_flatMap.2 ⟨(b, block), mem_liveBlocks.2 hb, hn⟩
    rw [node?_dropOperands, if_pos hmem] at hnode
    obtain ⟨old, _, rfl⟩ := Option.map_eq_some_iff.1 hnode
    exact operands_none _ old

/-! ## Killing what is unreachable -/

/-- A graph without the blocks that are not reachable. -/
structure Killed (g h : Graph) : Prop where
  block : ∀ b, h.block? b = (g.block? b).filter fun block => block.flags.reachable
  size : h.blocks.size = g.blocks.size
  nodes : h.nodes = g.nodes
  varArgs : h.varArgs = g.varArgs
  branches : h.branches = g.branches
  switches : h.switches = g.switches
  callLayouts : h.callLayouts = g.callLayouts
  loadLayouts : h.loadLayouts = g.loadLayouts

theorem killed_killUnreachable (g : Graph) : Killed g g.killUnreachable.2 := by
  refine ⟨block?_killUnreachable g, ?_, ?_, ?_, ?_, ?_, ?_, ?_⟩
  all_goals
    rw [killUnreachable]
    split
    · rfl
    · simp [invalidate]

namespace Killed

theorem block?_eq (hk : Killed g h) (hb : h.block? b = some block) :
    g.block? b = some block ∧ block.flags.reachable = true := by
  rw [hk.block] at hb
  exact Option.filter_eq_some_iff.1 hb

theorem block?_of_reachable (hk : Killed g h) (hb : g.block? b = some block)
    (hr : block.flags.reachable = true) : h.block? b = some block := by
  rw [hk.block, hb]
  simp [Option.filter, hr]

theorem node?_eq (hk : Killed g h) (n : NodeId) : h.node? n = g.node? n := by
  rw [node?, node?, hk.nodes]

theorem operands_eq (hk : Killed g h) (node : Node) : h.operands node = g.operands node := by
  rw [operands, operands, edgesOf_congr hk.varArgs]

theorem admits_eq (hk : Killed g h) (kind : Kind) (payload : Payload) :
    h.admits kind payload = g.admits kind payload :=
  admits_congr (by rw [hk.branches]) (by rw [hk.switches]) (by rw [hk.callLayouts])
    (by rw [hk.loadLayouts]) kind payload

theorem terminalNode?_eq (hk : Killed g h) (hb : h.block? b = some block) :
    h.terminalNode? b = g.terminalNode? b := by
  rw [terminalNode?, terminalNode?, hb, (hk.block?_eq hb).1]
  simp only [hk.node?_eq]

theorem successor?_eq (hk : Killed g h) (hb : h.block? b = some block) (slot : Nat) :
    h.successor? b slot = g.successor? b slot :=
  successor?_congr hk.branches hk.switches (by rw [hk.terminalNode?_eq hb]) slot

theorem successors_eq (hk : Killed g h) (hb : h.block? b = some block) :
    h.successors b = g.successors b :=
  successors_congr hk.branches hk.switches (by rw [hk.terminalNode?_eq hb])

variable (hk : Killed g h) (hg : g.WellFormed) (he : g.ReachExact)

include hk hg he

theorem block?_of_reaches (hb : g.flow.Reaches entry b) :
    ∃ block, g.block? b = some block ∧ h.block? b = some block := by
  obtain ⟨block, hblock⟩ := isLive_iff.1 (hg.isLive_of_reaches hb)
  exact ⟨block, hblock, hk.block?_of_reachable hblock ((he.reachable_iff b block hblock).2 hb)⟩

theorem edge_iff (hb : g.flow.Reaches entry b) : h.flow.Edge b c ↔ g.flow.Edge b c := by
  obtain ⟨block, _, hblock⟩ := hk.block?_of_reaches hg he hb
  simp only [Digraph.Edge, flow, hk.size, hk.successors_eq hblock]

theorem reaches_iff : h.flow.Reaches entry b ↔ g.flow.Reaches entry b := by
  have hstart := hg.reaches_entry
  constructor
  · intro hb
    refine hb.induction hstart ?_
    intro x y _ hedge hx
    exact hx.step ((hk.edge_iff hg he hx).1 hedge)
  · intro hb
    have hsize : entry < h.flow.size := by
      have := hstart.left_lt
      rwa [flow, hk.size]
    refine (hb.induction (P := fun x => g.flow.Reaches entry x ∧ h.flow.Reaches entry x)
      ⟨hstart, .refl hsize⟩ ?_).2
    rintro x y _ hedge ⟨hx, hx'⟩
    exact ⟨hx.step hedge, hx'.step ((hk.edge_iff hg he hx).2 hedge)⟩

theorem reachExact : h.ReachExact := by
  refine
    { reachable_iff := ?reachable_iff
      mem_preds_iff := ?mem_preds_iff
      nodup_preds := ?nodup_preds }
  all_goals
    intro b block hb
    obtain ⟨hb', hreach⟩ := hk.block?_eq hb
  case reachable_iff =>
    rw [hk.reaches_iff hg he]
    exact he.reachable_iff b block hb'
  case mem_preds_iff =>
    intro q
    rw [hk.reaches_iff hg he, he.mem_preds_iff b block hb' q]
    refine and_congr_right fun hq => ?_
    obtain ⟨_, _, hqblock⟩ := hk.block?_of_reaches hg he hq
    rw [hk.successors_eq hqblock]
  case nodup_preds => exact he.nodup_preds b block hb'

theorem reaches_of_isLive (hb : h.isLive b = true) : h.flow.Reaches entry b := by
  obtain ⟨block, hblock⟩ := isLive_iff.1 hb
  obtain ⟨hb', hreach⟩ := hk.block?_eq hblock
  rw [hk.reaches_iff hg he]
  exact (he.reachable_iff b block hb').1 hreach

/-- What is reachable keeps its code. -/
theorem sameCode (hb : g.flow.Reaches entry b) : SameCode g h b := by
  obtain ⟨block, hblock, hblock'⟩ := hk.block?_of_reaches hg he hb
  refine ⟨⟨block, block, hblock, hblock', ⟨by simp, fun _ _ _ _ h => h, ?_⟩, rfl⟩,
    hk.successor?_eq hblock'⟩
  intro n _ node hnode
  refine ⟨node, (hk.node?_eq n).trans hnode, rfl, rfl, rfl, ?_, .inr fun i => by simp, .inr ?_⟩
  · cases node.payload <;> simp [switchValues, hk.switches]
  · rw [hk.operands_eq]
    simp

end Killed

/-- A block that is kept is in order, when no phi refers to what is killed. -/
theorem Killed.blockOk (hk : Killed g h) (hg : g.WellFormed) (he : g.ReachExact) (hu : g.Unlinked)
    (hb : h.block? b = some block) : h.BlockOk b block := by
  have hold := (hk.block?_eq hb).1
  have hok := hg.block b block hold
  have hisPhi : ∀ n, h.isPhi n = g.isPhi n := fun n => by rw [isPhi, isPhi, hk.node?_eq]
  refine
    { phis := fun n hn => by rw [hisPhi]; exact hok.phis n hn
      nodes := fun n hn => by rw [hisPhi]; exact hok.nodes n hn
      ne_nil := hok.ne_nil
      node := ?node
      phi := ?phi
      pad := hok.pad
      successor := ?successor }
  case node =>
    intro before n after hsplit node hnode
    rw [hk.node?_eq] at hnode
    have hnodeOk := hok.node before n after hsplit node hnode
    exact ⟨hnodeOk.terminal, by rw [hk.admits_eq]; exact hnodeOk.admits,
      (inRange_congr hk.varArgs _).2 hnodeOk.inRange,
      by rw [hk.operands_eq]; exact hnodeOk.visible⟩
  case phi =>
    intro n hn node hnode
    rw [hk.node?_eq] at hnode
    have hnone := hu b block hold n hn node hnode
    exact ⟨(inRange_congr hk.varArgs _).2 (hok.phi n hn node hnode).inRange,
      by rw [hk.operands_eq, hnone]; simp⟩
  case successor =>
    intro slot hslot
    have hcount : h.successorCount b = g.successorCount b :=
      successorCount_congr hk.switches (by rw [hk.terminalNode?_eq hb])
    rw [hcount] at hslot
    obtain ⟨t, ht, _⟩ := hok.successor slot hslot
    have hreach := hk.reaches_of_isLive hg he (isLive_of_block? hb)
    rw [hk.reaches_iff hg he] at hreach
    have hedge := hg.edge_iff.2 (mem_successors_of_successor? ht)
    obtain ⟨_, _, hlive⟩ := hk.block?_of_reaches hg he (hreach.step hedge)
    exact ⟨t, by rw [hk.successor?_eq hb, ht], isLive_of_block? hlive⟩

theorem Killed.wellFormed (hk : Killed g h) (hg : g.WellFormed) (he : g.ReachExact)
    (hu : g.Unlinked) : h.WellFormed where
  entry_live := by
    obtain ⟨_, _, hlive⟩ := hk.block?_of_reaches hg he hg.reaches_entry
    exact isLive_of_block? hlive
  numbered := fun b block hb => hg.numbered b block (hk.block?_eq hb).1
  exists_node := by
    intro b block hb
    rw [hk.nodes]
    exact hg.exists_node b block (hk.block?_eq hb).1
  nodup := fun b block hb => hg.nodup b block (hk.block?_eq hb).1
  apart := fun b block c other n hb hc =>
    hg.apart b block c other n (hk.block?_eq hb).1 (hk.block?_eq hc).1
  block := fun b block hb => hk.blockOk hg he hu hb

/-- **Killing keeps a graph sound**, when no phi refers to what is killed. -/
theorem Killed.sound (hk : Killed g h) (hg : g.Sound) (he : g.ReachExact) (hu : g.Unlinked) :
    h.Sound where
  wellFormed := hk.wellFormed hg.wellFormed he hu
  pad := by
    intro b block hb hpad
    simp only [hk.node?_eq]
    exact hg.pad b block (hk.block?_eq hb).1 hpad
  phi_use := by
    intro b block hb n hn node hnode
    rw [hk.node?_eq] at hnode
    rw [hk.operands_eq]
    exact hg.phi_use b block (hk.block?_eq hb).1 n hn node hnode
  snapshot := fun b block hb => hg.snapshot b block (hk.block?_eq hb).1
  phi_operand := by
    intro b block hb n hn node hnode
    rw [hk.node?_eq] at hnode
    rw [hk.operands_eq, hu b block (hk.block?_eq hb).1 n hn node hnode]
    simp

/-! ## All of it -/

/-- The kept analyses, if any, are those of the graph as it is. -/
structure UpToDate (g : Graph) : Prop where
  dominators : ∀ tree, g.dominatorCache = some tree → tree = g.flow.dominatorTree entry
  loops : ∀ forest, g.loopCache = some forest →
    forest = g.flow.loopForest (g.flow.dominatorTree entry) entry

theorem UpToDate.analyzed (hu : g.UpToDate) (hg : g.WellFormed) (he : g.ReachExact) :
    g.Analyzed := by
  have hdom : g.dominatorTree = g.flow.dominatorTree entry := by
    rw [dominatorTree]
    split
    · rename_i tree htree
      exact hu.dominators tree htree
    · rfl
  refine ⟨hg, he, hdom, ?_⟩
  rw [loopForest, hdom]
  split
  · rename_i forest hforest
    exact hu.loops forest hforest
  · rfl

/-- No analysis is kept. -/
def Uncached (g : Graph) : Prop := g.dominatorCache = none ∧ g.loopCache = none

theorem Uncached.upToDate (hu : g.Uncached) : g.UpToDate :=
  ⟨fun _ h => (nomatch hu.1.symm.trans h), fun _ h => (nomatch hu.2.symm.trans h)⟩

theorem uncached_dethread (hu : g.Uncached) : g.dethread.Uncached := by
  rcases g.dethread_eq with ⟨heq, _⟩ | heq <;> rw [heq]
  · exact hu
  · rw [dropOperands_eq]
    exact hu

theorem uncached_killUnreachable (hu : g.Uncached) : g.killUnreachable.2.Uncached := by
  rw [killUnreachable]
  split
  · exact hu
  · exact ⟨rfl, rfl⟩

theorem form_killUnreachable (g : Graph) : g.killUnreachable.2.form = g.form := by
  rw [killUnreachable]
  split <;> rfl

/-- The phis of a well-formed graph exist, -/
theorem WellFormed.requirePhis (hg : g.WellFormed) : g.requirePhis = .ok () := by
  rw [Graph.requirePhis]
  split
  · rfl
  · refine require_eq_ok_iff.2 fun n hn => ?_
    obtain ⟨⟨b, block⟩, hb, hn⟩ := List.mem_flatMap.1 hn
    obtain ⟨node, hnode⟩ :=
      exists_node? (hg.exists_node b block (mem_liveBlocks.1 hb) n (List.mem_append_left _ hn))
    rw [hnode]
    rfl

/-- so that finishing a change does not stop. -/
theorem finalize_eq_ok {s : Session} (hs : s.graph.WellFormed) :
    Cloning.finalize s = .ok s.finalize.1 s.finalize.2 := by
  rw [Cloning.finalize, hs.requirePhis]

/-- What the graph `g` has become when the change that led to it is finished. -/
structure CleanedUp (g h : Graph) : Prop where
  sound : h.Sound
  unlinked : h.Unlinked
  form : h.form = .loadStore
  analyzed : h.Analyzed
  live : ∀ b, h.isLive b = true → h.flow.Reaches entry b
  reaches_iff : ∀ b, h.flow.Reaches entry b ↔ g.flow.Reaches entry b
  sameCode : ∀ b, g.flow.Reaches entry b → SameCode g h b

/-- Committing the new blocks, or else just leaving the threaded form. -/
theorem exists_recast_finalize (s : Session) :
    ∃ g, Recast s.graph g ∧ g.Uncached ∧ g.form = s.graph.form ∧
      s.finalize.2.graph = g.dethread.resetReachability.killUnreachable.2 := by
  by_cases hp : s.graph.pending = 0
  · refine ⟨s.graph.invalidate, recast_invalidate _, ⟨rfl, rfl⟩, rfl, ?_⟩
    simp [Session.finalize, commitInsertions, hp]
  · refine ⟨{ s.graph with pending := 0 }.invalidate, .of_blocks rfl rfl rfl rfl rfl rfl rfl,
      ⟨rfl, rfl⟩, rfl, ?_⟩
    simp [Session.finalize, commitInsertions, hp]

/-- **Finishing a change** leaves a sound graph in which every live block is reachable. -/
theorem cleanedUp_finalize {s : Session} (hs : s.graph.Sound)
    (hu : s.graph.form = .loadStore → s.graph.Unlinked) :
    CleanedUp s.graph s.finalize.2.graph := by
  obtain ⟨g, hrecast, hcache, hform, heq⟩ := exists_recast_finalize s
  rw [heq]
  have hg := hrecast.sound hs
  have hd : g.dethread.Sound := hg.dethread
  have hdu : g.dethread.Unlinked :=
    unlinked_dethread fun h => hrecast.unlinked (hu (hform ▸ h))
  have hreset := Recast.resetReachability hd.wellFormed.entry_live
  have hexact := reachExact_resetReachability hd.wellFormed.entry_live
  have hk := killed_killUnreachable g.dethread.resetReachability
  have hr := hreset.sound hd
  have hkr := hk.sound hr hexact (hreset.unlinked hdu)
  have hcached : g.dethread.resetReachability.Uncached := by
    rw [resetReachability_eq hd.wellFormed.entry_live]
    exact uncached_dethread hcache
  -- the steps before killing change no code
  have hrephrased : Rephrased s.graph g.dethread.resetReachability :=
    (hrecast.toRephrased.trans (rephrased_dethread hg)).trans hreset.toRephrased
  have hflow := hrephrased.flow_eq hs.wellFormed
  refine
    { sound := hkr
      unlinked := ?unlinked
      form := ?form
      analyzed := ?analyzed
      live := fun b => hk.reaches_of_isLive hr.wellFormed hexact
      reaches_iff := ?reaches_iff
      sameCode := ?sameCode }
  case unlinked =>
    intro b block hb n hn node hnode
    rw [hk.node?_eq] at hnode
    rw [hk.operands_eq]
    exact hreset.unlinked hdu b block (hk.block?_eq hb).1 n hn node hnode
  case form =>
    rw [form_killUnreachable, resetReachability_eq hd.wellFormed.entry_live]
    exact form_dethread g
  case analyzed =>
    exact (uncached_killUnreachable hcached).upToDate.analyzed hkr.wellFormed
      (hk.reachExact hr.wellFormed hexact)
  case reaches_iff =>
    intro b
    rw [hk.reaches_iff hr.wellFormed hexact, hflow]
  case sameCode =>
    intro b hb
    have hb' : g.dethread.resetReachability.flow.Reaches entry b := by rwa [hflow]
    exact (hrephrased.sameCode hs.wellFormed (hs.wellFormed.isLive_of_reaches hb)).trans
      (hk.sameCode hr.wellFormed hexact hb')

end Unroller.Graph
