import Mathlib.Tactic
import Unroller.Graph.Builder
import Unroller.Proofs.Graph.Threading

/-!
# Graphs that come from a builder

* `Builder.Made`: the builders that the building operations lead to, with or without analyses of the
  graph on the way.
* `Draft`: what all their graphs have in common; `Made.draft` is the induction over the operations.
* `of_finish`: what a builder returns is sound and threaded, whatever it has kept.
* `Finished`: the returned graphs whose kept analyses, if any, are their own; analyses may have been
  kept since.  A builder that was asked for its loops halfway can return other graphs as well.
* `Finished.sound_analyzed`: such a graph is sound, and its analyses are its own.
* `countingLoop`: a small function with a loop, as a builder returns it; `halfwayLoop`: one whose
  loops were asked for while another one was still open.
-/

namespace Unroller

/-- The builders that the building operations lead to. -/
inductive Builder.Made : Builder → Prop where
  | start (locals : Nat) (name : String) (function : Option FunctionHash) :
    Made (.start locals name function)
  | block {b : Builder} (made : Made b) (executionCount : Float) : Made (b.block executionCount).2
  | edgePad {b : Builder} (made : Made b) (target : BlockId) : Made (b.edgePad target).2
  | switchTo {b : Builder} (made : Made b) (target : BlockId) : Made (b.switchTo target)
  | node {b : Builder} (made : Made b) (kind : Kind) (children : Children) (payload : Payload) :
    Made (b.node kind children payload).2
  | variadic {b : Builder} (made : Made b) (kind : Kind) (edges : List Edge) :
    Made (b.variadic kind edges).2
  | callVarargs {b : Builder} (made : Made b) (callee this arguments : Edge) :
    Made (b.callVarargs callee this arguments).2
  | loadVarargs {b : Builder} (made : Made b) (kind : Kind) (arguments : Edge)
    (layout : LoadVarargs) : Made (b.loadVarargs kind arguments layout).2
  | branch {b : Builder} (made : Made b) (condition : Edge) (taken notTaken : BlockId) :
    Made (b.branch condition taken notTaken).2
  | switch {b : Builder} (made : Made b) (scrutinee : Edge) (cases : List (Int32 × BlockId))
    (fallThrough : BlockId) : Made (b.switch scrutinee cases fallThrough).2
  | analyzeDominators {b : Builder} (made : Made b) : Made b.analyzeDominators
  | analyzeLoops {b : Builder} (made : Made b) : Made b.analyzeLoops

namespace Graph

variable {g h : Graph} {b : BlockId} {block : Block}

/-! ## Keeping analyses -/

theorem recast_cacheDominators (g : Graph) : Recast g g.cacheDominators :=
  .of_blocks rfl rfl rfl rfl rfl rfl rfl

theorem recast_cacheLoops (g : Graph) : Recast g g.cacheLoops := by
  rw [cacheLoops]
  split <;> exact .of_blocks rfl rfl rfl rfl rfl rfl rfl

theorem blocks_cacheLoops (g : Graph) : g.cacheLoops.blocks = g.blocks := by
  rw [cacheLoops]
  split <;> rfl

theorem form_cacheLoops (g : Graph) : g.cacheLoops.form = g.form := by
  rw [cacheLoops]
  split <;> rfl

/-! ## Drafts -/

/-- A graph under construction: nothing is threaded, and a pad starts with a jump. -/
structure Draft (g : Graph) : Prop where
  phis : ∀ b block, g.block? b = some block → block.phis = []
  recorded : ∀ b block, g.block? b = some block → recorded block = []
  pad : ∀ b block, g.block? b = some block → block.flags.edgePad = true →
    ∃ n rest node, block.nodes = n :: rest ∧ g.node? n = some node ∧ node.kind = .jump
  form : g.form = .loadStore

namespace Draft

/-- Records, variadic operands and kept analyses do not matter. -/
theorem congr (hg : g.Draft) (hblocks : h.blocks = g.blocks) (hnodes : h.nodes = g.nodes)
    (hform : h.form = g.form) : h.Draft := by
  have hblock : ∀ b, h.block? b = g.block? b := fun b => by rw [block?, block?, hblocks]
  have hnode : ∀ n, h.node? n = g.node? n := fun n => by rw [node?, node?, hnodes]
  refine ⟨?_, ?_, ?_, hform.trans hg.form⟩
  all_goals simp only [hblock, hnode]
  · exact hg.phis
  · exact hg.recorded
  · exact hg.pad

theorem addNode (hg : g.Draft) (n : Node) : (g.addNode n).2.Draft := by
  refine ⟨hg.phis, hg.recorded, ?_, hg.form⟩
  intro b block hb hpad
  obtain ⟨m, rest, node, hnodes, hm, hkind⟩ := hg.pad b block hb hpad
  refine ⟨m, rest, node, hnodes, ?_, hkind⟩
  rw [node?_addNode, if_neg (Nat.ne_of_lt (lt_size_of_node? hm)), hm]

/-- A node at the end of a block. -/
theorem appendNode (hg : g.Draft) {n : Node} {e : NodeId × Graph}
    (happend : g.appendNode b n = .ok e) : e.2.Draft := by
  rw [Graph.appendNode] at happend
  split at happend
  case isFalse => cases happend
  obtain rfl := Except.ok.inj happend
  have hadd := hg.addNode n
  have hold : ∀ c copy, ((g.addNode n).2.modifyBlock b fun block =>
      { block with nodes := block.nodes ++ [g.nodes.size] }).block? c = some copy →
      ∃ old, g.block? c = some old ∧ copy.phis = old.phis ∧ copy.head = old.head ∧
        copy.tail = old.tail ∧ copy.flags = old.flags ∧
        (copy.nodes = old.nodes ∨ copy.nodes = old.nodes ++ [g.nodes.size]) := by
    intro c copy hc
    rw [block?_modifyBlock] at hc
    split at hc
    · obtain ⟨old, hold, rfl⟩ := Option.map_eq_some_iff.1 hc
      exact ⟨old, hold, rfl, rfl, rfl, rfl, .inr rfl⟩
    · exact ⟨copy, hc, rfl, rfl, rfl, rfl, .inl rfl⟩
  refine ⟨?_, ?_, ?_, hg.form⟩
  all_goals
    intro c copy hc
    obtain ⟨old, hold, hphis, hhead, htail, hflags, hnodes⟩ := hold c copy hc
  · rw [hphis, hg.phis c old hold]
  · rw [Graph.recorded, hhead, htail]
    exact hg.recorded c old hold
  · intro hpad
    obtain ⟨m, rest, node, heq, hm, hkind⟩ := hadd.pad c old hold (hflags ▸ hpad)
    rcases hnodes with hnodes | hnodes
    · exact ⟨m, rest, node, hnodes.trans heq, hm, hkind⟩
    · exact ⟨m, rest ++ [g.nodes.size], node, by rw [hnodes, heq]; rfl, hm, hkind⟩

/-- A new block that is no pad. -/
theorem addBlock (hg : g.Draft) (executionCount : Float) : (g.addBlock executionCount).2.Draft := by
  have hnew : ∀ b block, (g.addBlock executionCount).2.block? b = some block →
      g.block? b = some block ∨ block = .ofCount g.blocks.size g.locals executionCount := by
    intro b block hb
    rw [Graph.addBlock, block?_push] at hb
    split at hb
    · exact .inr (Option.some.inj hb).symm
    · exact .inl hb
  refine ⟨?_, ?_, ?_, hg.form⟩
  all_goals
    intro b block hb
    rcases hnew b block hb with hb | rfl
  · exact hg.phis b block hb
  · rfl
  · exact hg.recorded b block hb
  · simp [Graph.recorded, Block.ofCount, Snapshot.entries_ofLocals]
  · exact hg.pad b block hb
  · intro hpad
    cases hpad

/-- A draft without defects is sound. -/
theorem sound (hg : g.Draft) (hw : g.WellFormed) : g.Sound := by
  refine ⟨hw, ?_, ?_, ?_, ?_⟩
  · intro b block hb hpad
    obtain ⟨n, rest, node, hnodes, hnode, hkind⟩ := hg.pad b block hb hpad
    have hlen := (hw.block b block hb).pad hpad
    rw [hnodes, List.length_cons] at hlen
    obtain rfl : rest = [] := List.length_eq_zero_iff.1 (by omega)
    exact ⟨n, node, hnodes, hnode, hkind⟩
  · intro b block hb n _ node _ _ c _
    simp [hg.phis b block hb]
  · intro b block hb n hn
    rw [hg.recorded b block hb] at hn
    cases hn
  · intro b block hb n hn
    rw [hg.phis b block hb] at hn
    cases hn

theorem unlinked (hg : g.Draft) : g.Unlinked := by
  intro b block hb n hn
  rw [hg.phis b block hb] at hn
  cases hn

end Draft

end Graph

/-! ## Building operations -/

namespace Builder

open Unroller.Graph (Draft block?_push isLive block?_modifyBlock block?_addNode
  node?_addNode)

variable {b : Builder}

theorem draft_node (hb : b.graph.Draft) (kind : Kind) (children : Children) (payload : Payload) :
    (b.node kind children payload).2.graph.Draft := by
  rw [node]
  simp only
  split
  · rename_i id graph hplaced
    split at hplaced
    · cases hplaced
    · exact hb.appendNode hplaced
  · exact hb.addNode _

theorem draft_foldl_addVarArg {g : Graph} (hg : g.Draft) (edges : List Edge) :
    (edges.foldl (fun g e => (g.addVarArg e).2) g).Draft := by
  induction edges generalizing g with
  | nil => exact hg
  | cons e edges ih => exact ih (hg.congr rfl rfl rfl)

/-- A node that finds its block. -/
theorem graph_node {t : BlockId} (hcurrent : b.current = some t) (hlive : b.graph.isLive t = true)
    (kind : Kind) (children : Children) (payload : Payload) :
    ∃ n : Node, n.kind = kind ∧ (b.node kind children payload).2.graph =
      (b.graph.addNode n).2.modifyBlock t fun block =>
        { block with nodes := block.nodes ++ [b.graph.nodes.size] } := by
  refine ⟨{ kind := kind, children := children, payload := payload, origin := b.nextOrigin
            prediction := .initial kind payload }, rfl, ?_⟩
  simp only [node, hcurrent, Graph.appendNode, hlive, if_true]
  rfl

/-- A pad is a block with a jump from the start. -/
theorem draft_edgePad (hb : b.graph.Draft) (target : BlockId) :
    (b.edgePad target).2.graph.Draft := by
  obtain ⟨pad, hpad⟩ : ∃ pad, pad = (b.graph.addBlock 1).2.modifyBlock b.graph.blocks.size
    fun block => { block with flags := { block.flags with edgePad := true } } := ⟨_, rfl⟩
  have hblock : ∀ c, pad.block? c = if c = b.graph.blocks.size then
      some { Block.ofCount b.graph.blocks.size b.graph.locals 1 with flags := { edgePad := true } }
      else b.graph.block? c := by
    intro c
    rw [hpad, block?_modifyBlock, Graph.addBlock, block?_push]
    by_cases hc : c = b.graph.blocks.size
    · subst hc
      simp only [if_true]
      rfl
    · rw [if_neg hc, if_neg fun h => hc h.symm, if_neg hc]
  have hlive : pad.isLive b.graph.blocks.size = true := by
    rw [isLive, hblock]
    simp
  obtain ⟨jump, hkind, hgraph⟩ := graph_node (b := { b with
    graph := pad, current := some b.graph.blocks.size }) rfl hlive .jump .none (.jump target)
  have heq : (b.edgePad target).2.graph = (pad.addNode jump).2.modifyBlock b.graph.blocks.size
      fun block => { block with nodes := block.nodes ++ [pad.nodes.size] } := by
    rw [← hgraph, hpad]
    rfl
  have hsize : pad.nodes.size = b.graph.nodes.size := by
    rw [hpad]
    rfl
  rw [heq, hsize]
  -- all blocks are the old ones, except for the pad with its jump
  have hcases : ∀ c copy, ((pad.addNode jump).2.modifyBlock b.graph.blocks.size fun block =>
      { block with nodes := block.nodes ++ [b.graph.nodes.size] }).block? c = some copy →
      b.graph.block? c = some copy ∨
        copy = { Block.ofCount b.graph.blocks.size b.graph.locals 1 with
          flags := { edgePad := true }, nodes := [b.graph.nodes.size] } := by
    intro c copy hc
    rw [block?_modifyBlock, block?_addNode, hblock] at hc
    by_cases hc' : c = b.graph.blocks.size
    · subst hc'
      simp only [if_true, Option.map_some, Option.some.injEq] at hc
      exact .inr hc.symm
    · rw [if_neg fun h => hc' h.symm, if_neg hc'] at hc
      exact .inl hc
  have hnode : ∀ n, pad.node? n = b.graph.node? n := fun n => by
    rw [hpad]
    rfl
  have hform : pad.form = b.graph.form := by
    rw [hpad]
    rfl
  refine ⟨?_, ?_, ?_, hform.trans hb.form⟩
  all_goals
    intro c copy hc
    rcases hcases c copy hc with hc | rfl
  · exact hb.phis c copy hc
  · rfl
  · exact hb.recorded c copy hc
  · simp [Graph.recorded, Block.ofCount, Snapshot.entries_ofLocals]
  · intro hflag
    obtain ⟨n, rest, node, hnodes, hn, hjump⟩ := hb.pad c copy hc hflag
    refine ⟨n, rest, node, hnodes, ?_, hjump⟩
    rw [Graph.node?_modifyBlock, node?_addNode, hsize, hnode,
      if_neg (Nat.ne_of_lt (Graph.lt_size_of_node? hn)), hn]
  · intro _
    refine ⟨_, [], jump, rfl, ?_, hkind⟩
    rw [Graph.node?_modifyBlock, node?_addNode, hsize, if_pos rfl]

/-- **Every graph under construction is a draft.** -/
theorem Made.draft (h : Made b) : b.graph.Draft := by
  induction h with
  | start locals name function =>
    have hnone : ∀ c, (Builder.start locals name function).graph.block? c = none := fun c => rfl
    exact ⟨fun c block hc => by simp [hnone] at hc, fun c block hc => by simp [hnone] at hc,
      fun c block hc => by simp [hnone] at hc, rfl⟩
  | block _ executionCount ih => exact ih.addBlock executionCount
  | edgePad _ target ih => exact draft_edgePad ih target
  | @switchTo b _ target ih =>
    rw [Builder.switchTo]
    split <;> exact ih
  | node _ kind children payload ih => exact draft_node ih kind children payload
  | variadic _ kind edges ih => exact draft_node (draft_foldl_addVarArg ih edges) _ _ _
  | @callVarargs b _ callee this arguments ih =>
    exact draft_node (b := { b with graph := (b.graph.addCallLayout ⟨0⟩).2 })
      (ih.congr rfl rfl rfl) _ _ _
  | @loadVarargs b _ kind arguments layout ih =>
    exact draft_node (b := { b with graph := (b.graph.addLoadLayout layout).2 })
      (ih.congr rfl rfl rfl) _ _ _
  | @branch b _ condition taken notTaken ih =>
    exact draft_node (b := { b with graph := (b.graph.addBranch _).2 })
      (ih.congr rfl rfl rfl) _ _ _
  | @switch b _ scrutinee cases fallThrough ih =>
    exact draft_node (b := { b with graph := (b.graph.addSwitch _).2 })
      (ih.congr rfl rfl rfl) _ _ _
  | analyzeDominators _ ih => exact ih.congr rfl rfl rfl
  | @analyzeLoops b _ ih =>
    have hr := Graph.recast_cacheLoops b.graph
    exact ih.congr (Graph.blocks_cacheLoops b.graph) hr.nodes (Graph.form_cacheLoops b.graph)

end Builder

/-! ## Finished graphs -/

/-- A builder returns the threaded form of a graph that is valid. -/
theorem Builder.of_finish_eq_ok {b : Builder} {g : Graph} (h : b.finish = .ok g) :
    b.graph.validate = .ok () ∧ g = b.graph.threadLocals := by
  rw [finish] at h
  split at h
  · cases h
  · split at h
    · cases h
    · rename_i hvalid
      exact ⟨hvalid, (Except.ok.inj h).symm⟩

/-- **What a builder returns** is sound and threaded, its predecessor lists are exact, and it keeps
what the builder has kept. -/
theorem Builder.Made.of_finish {b : Builder} {g : Graph} (made : b.Made)
    (hfinish : b.finish = .ok g) : g.Sound ∧ g.ReachExact ∧ g.form = .threaded ∧
      g.dominatorCache = b.graph.dominatorCache ∧ g.loopCache = b.graph.loopCache := by
  obtain ⟨hvalid, rfl⟩ := Builder.of_finish_eq_ok hfinish
  have hdraft := made.draft
  have hw := Graph.validate_eq_ok_iff.1 hvalid
  have ht := Graph.threadedFrom_threadLocals (hdraft.sound hw) hdraft.unlinked
  exact ⟨ht.sound, ht.reachExact, ht.form, ht.dominatorCache, ht.loopCache⟩

/-- The graphs a builder returns with no analysis kept, or with its own; analyses may have been kept
since. -/
inductive Finished : Graph → Prop where
  | finish {b : Builder} {g : Graph} (made : b.Made) (finish : b.finish = .ok g)
    (upToDate : g.UpToDate) : Finished g
  | cacheDominators {g : Graph} (finished : Finished g) : Finished g.cacheDominators
  | cacheLoops {g : Graph} (finished : Finished g) : Finished g.cacheLoops

namespace Graph

variable {g : Graph}

theorem Analyzed.cacheDominators (hs : g.Sound) (hg : g.Analyzed) : g.cacheDominators.Analyzed := by
  have hr := recast_cacheDominators g
  refine ⟨(hr.sound hs).wellFormed,
    hr.reachExact hs.wellFormed hg.reach fun _ => rfl, hg.dominators, ?_⟩
  exact hg.loops

theorem Analyzed.cacheLoops (hs : g.Sound) (hg : g.Analyzed) : g.cacheLoops.Analyzed := by
  rw [Graph.cacheLoops]
  split
  · exact hg
  · have hd := Analyzed.cacheDominators hs hg
    have hr : Recast g { g.cacheDominators with loopCache := some g.cacheDominators.loopForest } :=
      .of_blocks rfl rfl rfl rfl rfl rfl rfl
    exact ⟨(hr.sound hs).wellFormed, hr.reachExact hs.wellFormed hg.reach fun _ => rfl,
      hd.dominators, hd.loops⟩

end Graph

/-- Nothing is kept if the builder has kept nothing. -/
theorem Finished.of_uncached {b : Builder} {g : Graph} (made : b.Made) (hfinish : b.finish = .ok g)
    (hu : b.graph.Uncached) : Finished g := by
  obtain ⟨_, _, _, hdominators, hloops⟩ := made.of_finish hfinish
  have hg : g.Uncached := ⟨hdominators.trans hu.1, hloops.trans hu.2⟩
  exact .finish made hfinish hg.upToDate

/-- **A finished graph** is sound and threaded, and its analyses are its own. -/
theorem Finished.sound_analyzed {g : Graph} (h : Finished g) :
    g.Sound ∧ g.Analyzed ∧ g.form = .threaded := by
  induction h with
  | @finish b g made hfinish hupToDate =>
    obtain ⟨hs, he, hform, _⟩ := made.of_finish hfinish
    exact ⟨hs, hupToDate.analyzed hs.wellFormed he, hform⟩
  | cacheDominators _ ih =>
    exact ⟨(Graph.recast_cacheDominators _).sound ih.1, ih.2.1.cacheDominators ih.1, ih.2.2⟩
  | @cacheLoops g _ ih =>
    exact ⟨(Graph.recast_cacheLoops g).sound ih.1, ih.2.1.cacheLoops ih.1,
      (Graph.form_cacheLoops g).trans ih.2.2⟩

/-! ## A graph that a builder returns -/

namespace Builder

/-- The three blocks of a function that counts local 0 up from zero, the first of them filled. -/
def countingEntry : Builder :=
  let b := ((((start 2 "" none).block 1).2.block 1).2.block 1).2.switchTo 0
  let b := (b.constant (.int32 0)).2
  let b := (b.setLocal 0 (.typed 0 .int32)).2
  (b.jump 1).2.switchTo 1

/-- The same with the update of local 0 in the second block. -/
def countingUpdate : Builder :=
  let b := (countingEntry.getLocal 0).2
  let b := (b.constant (.int32 1)).2
  let b := (b.binary .arithAdd (.typed 3 .int32) (.typed 4 .int32)).2
  (b.setLocal 0 (.typed 5 .int32)).2

/-- A function that counts local 0 up from zero, to three or to what local 1 holds. -/
def countingLoop (known : Bool) : Builder :=
  let b := countingUpdate
  let b := if known then (b.constant (.int32 3)).2 else (b.getLocal 1).2
  let b := (b.binary .compareLess (.typed 5 .int32) (.typed 7 .int32)).2
  let b := (b.branch (.untyped 8) 1 2).2.switchTo 2
  let b := (b.getLocal 0).2
  (b.ret (.untyped 10)).2

theorem made_countingEntry : countingEntry.Made := by
  have hentry := ((((Made.start 2 "" none).block 1).block 1).block 1).switchTo 0
  exact (((hentry.node _ _ _).node _ _ _).node _ _ _).switchTo 1

theorem made_countingUpdate : countingUpdate.Made :=
  (((made_countingEntry.node _ _ _).node _ _ _).node _ _ _).node _ _ _

theorem made_countingLoop (known : Bool) : (countingLoop known).Made := by
  cases known <;>
    exact
      (((((made_countingUpdate.node _ _ _).node _ _ _).branch _ _ _).switchTo _).node _ _ _).node
      _ _ _

/-- A builder that has met no defect returns its graph, if that has none. -/
theorem finish_of_defects {b : Builder} (hdefect : b.defect = none)
    (hvalid : b.graph.defects.isEmpty = true) : b.finish = .ok b.graph.threadLocals := by
  have hok : b.graph.validate = .ok () := by rw [Graph.validate, List.isEmpty_iff.1 hvalid]
  rw [finish, hdefect, hok]

theorem finish_countingLoop (known : Bool) :
    (countingLoop known).finish = .ok (countingLoop known).graph.threadLocals := by
  refine finish_of_defects (by cases known <;> rfl) ?_
  revert known
  decide +kernel

/-- Three blocks, the first of which counts local 0 up, to three or to what local 1 holds. -/
def halfwayInner (known : Bool) : Builder :=
  let b := ((((start 2 "" none).block 1).2.block 1).2.block 1).2.switchTo 0
  let b := (b.getLocal 0).2
  let b := (b.constant (.int32 1)).2
  let b := (b.binary .arithAdd (.typed 0 .int32) (.typed 1 .int32)).2
  let b := (b.setLocal 0 (.untyped 2)).2
  let b := if known then (b.constant (.int32 3)).2 else (b.getLocal 1).2
  let b := (b.binary .compareLess (.typed 2 .int32) (.typed 4 .int32)).2
  (b.branch (.untyped 5) 0 1).2

/-- The loops are asked for, and then the other two blocks lead back to the first one, with local 0
at zero. -/
def halfwayLoop (known : Bool) : Builder :=
  let b := (halfwayInner known).analyzeLoops.switchTo 1
  let b := (b.jump 2).2.switchTo 2
  let b := (b.constant (.int32 0)).2
  let b := (b.setLocal 0 (.untyped 8)).2
  (b.jump 0).2

theorem made_halfwayInner (known : Bool) : (halfwayInner known).Made := by
  have hentry := ((((Made.start 2 "" none).block 1).block 1).block 1).switchTo 0
  have hconstant := (hentry.node .getLocal .none (.slot 0)).node .jsConstant .none
    (.constant (.int32 1))
  cases known <;>
    exact ((((hconstant.node _ _ _).node _ _ _).node _ _ _).node _ _ _).branch _ _ _

theorem made_halfwayLoop (known : Bool) : (halfwayLoop known).Made := by
  have hlooked := (made_halfwayInner known).analyzeLoops
  exact (((((hlooked.switchTo 1).node _ _ _).switchTo 2).node _ _ _).node _ _ _).node _ _ _

theorem finish_halfwayLoop (known : Bool) :
    (halfwayLoop known).finish = .ok (halfwayLoop known).graph.threadLocals := by
  refine finish_of_defects (by cases known <;> rfl) ?_
  revert known
  decide +kernel

end Builder

theorem finished_countingLoop (known : Bool) :
    Finished (Builder.countingLoop known).graph.threadLocals :=
  .of_uncached (Builder.made_countingLoop known) (Builder.finish_countingLoop known)
    (by cases known <;> exact ⟨rfl, rfl⟩)

end Unroller
