import Mathlib.Tactic
import Unroller.Proofs.Graph.Building
import Unroller.Proofs.Graph.PhiLinks
import Unroller.Proofs.Graph.Rewiring

/-!
# Threading keeps graphs valid

Threading takes the old phis of reachable blocks off their lists, puts new ones there, and keeps
those of unreachable blocks.  What used an old phi has to be rewritten, then; only reads of locals
are.  Validity survives, therefore, when nothing else uses phis, and nothing else does afterwards.

* `PhisOnlyRead`: of what blocks list, only reads of locals use phis.
* `RebuiltLocals.block_cases`: a block of the new graph has its picture, or is unreachable and kept.
* `phisInOrder_threadLocals`: the new phis and reads are in order.
* `WellFormed.hasPhi_threadLocals`: the nodes that threading adds are phis of blocks.
* `threadLocals_keeps_valid`: a threaded graph is valid, and so is what a builder returns.
-/

namespace Unroller.Graph

variable {g h : Graph} {b c q : BlockId} {n p : NodeId} {l : Local} {node image : Node}
  {block old : Block} {preds : List BlockId}

/-! ## Uses of phis -/

/-- The node is a read of a local, or uses no phi. -/
def UsesNoPhi (g : Graph) (node : Node) : Prop :=
  node.kind ≠ .getLocal → ∀ c ∈ g.operands node, g.isPhi c = false

/-- Of the nodes that blocks list, only reads of locals use phis. -/
def PhisOnlyRead (g : Graph) : Prop :=
  ∀ n ∈ g.listing, ∀ node, g.node? n = some node → g.UsesNoPhi node

instance (g : Graph) (node : Node) : Decidable (g.UsesNoPhi node) :=
  inferInstanceAs (Decidable (node.kind ≠ .getLocal → ∀ c ∈ g.operands node, g.isPhi c = false))

instance (g : Graph) : Decidable g.PhisOnlyRead :=
  inferInstanceAs (Decidable (∀ n ∈ g.listing, ∀ node ∈ g.node? n, g.UsesNoPhi node))

theorem PhisOnlyRead.phisForReads (hread : g.PhisOnlyRead) (hg : g.WellFormed) :
    g.PhisForReads := by
  intro b block hb n hn node hnode hkind c hc hmem
  have hphi :=
    hread n (mem_listing.2 ⟨b, block, hb, List.mem_append_right _ hn⟩) node hnode hkind c hc
  rw [(hg.block b block hb).phis c hmem] at hphi
  cases hphi

/-- A phi uses nodes that blocks run. -/
theorem PhisOnlyRead.runs_of_phi (hread : g.PhisOnlyRead) (hg : g.WellFormed)
    (hb : g.block? b = some block) (hn : n ∈ block.phis) (hnode : g.node? n = some node)
    (hc : c ∈ g.operands node) : ∃ d, g.Runs d c := by
  have hphi := (isPhi_eq_true_iff hnode).1 ((hg.block b block hb).phis n hn)
  have hnot := hread n (mem_listing.2 ⟨b, block, hb, List.mem_append_left _ hn⟩) node hnode
    (by simp [hphi]) c hc
  obtain ⟨d, other, hd, hmem⟩ := ((hg.block b block hb).phi n hn node hnode).listed c hc
  refine ⟨d, other, hd, (List.mem_append.1 hmem).resolve_left fun hmem => ?_⟩
  rw [(hg.block d other hd).phis c hmem] at hnot
  cases hnot

/-! ## What threading leaves -/

namespace RebuiltLocals

variable (hr : RebuiltLocals g h)

include hr

/-- **The blocks of the new graph.** -/
theorem block_cases (hg : g.WellFormed) (hb : h.block? b = some block) :
    (g.flow.Reaches entry b ∧ ∃ old, g.block? b = some old ∧ block.nodes = old.nodes ∧
      LocalPicture g h old.nodes block.phis block.head block.tail) ∨
    (¬ g.flow.Reaches entry b ∧ ∃ old, g.block? b = some old ∧ block.nodes = old.nodes ∧
      block.phis = old.phis) := by
  by_cases hreached : g.flow.Reaches entry b
  · exact .inl ⟨hreached, hr.exists_picture hg hreached hb⟩
  · have hlive : g.isLive b = true := by
      rw [← hr.isLive]
      exact isLive_iff.2 ⟨block, hb⟩
    obtain ⟨old, hold⟩ := isLive_iff.1 hlive
    obtain ⟨preds, hnew⟩ := hr.unreached b old hold hreached
    rw [hb] at hnew
    obtain rfl := Option.some.inj hnew
    exact .inr ⟨hreached, old, hold, rfl, rfl⟩

/-- What is no read stays. -/
theorem node?_of_ne_getLocal (hnode : g.node? n = some node) (hkind : node.kind ≠ .getLocal) :
    h.node? n = some node :=
  hr.other n node hnode fun _ _ _ _ _ => hkind

/-- What an unreachable block runs stays. -/
theorem node?_of_unreached (hg : g.WellFormed) (hb : g.block? b = some block)
    (hnot : ¬ g.flow.Reaches entry b) (hn : n ∈ block.nodes) : h.node? n = g.node? n := by
  obtain ⟨node, hnode⟩ := exists_node? (hg.exists_node b block hb n (List.mem_append_right _ hn))
  rw [hnode]
  refine hr.other n node hnode fun c other hc hreached hn' => absurd hreached ?_
  rwa [← hg.apart b block c other n hb hc (List.mem_append_right _ hn)
    (List.mem_append_right _ hn')]

/-- A node that was there stays a phi or none. -/
theorem isPhi_eq (hcode : Rephrased g h) (hn : n < g.nodes.size) : h.isPhi n = g.isPhi n := by
  obtain ⟨node, hnode⟩ := exists_node? hn
  by_cases hkind : node.kind = .getLocal
  · obtain ⟨image, himage, hsame⟩ := hcode.node n node hnode (by simp [hkind])
    simp [isPhi, hnode, himage, hsame.kind]
  · rw [isPhi, isPhi, hnode, hr.node?_of_ne_getLocal hnode hkind]

end RebuiltLocals

/-! ## Phis and reads of the new graph -/

/-- A linked phi uses accesses that reachable blocks list. -/
theorem Linked.runs_of_operand (hp : Linked h preds p) (hr : RebuiltLocals g h) (hg : g.WellFormed)
    (hpreds : ∀ q ∈ preds, g.flow.Reaches entry q) (hnode : h.node? p = some node) :
    h.InRange node.children ∧ ∀ c ∈ h.operands node, ∃ d, g.Runs d c := by
  obtain ⟨phi, l, hphi, _, hchildren⟩ := hp
  rw [hnode] at hphi
  obtain rfl := Option.some.inj hphi
  refine ⟨by rw [hchildren]; trivial, fun c hc => ?_⟩
  have hmem := mem_operands_ofList hchildren hc
  rw [incoming_eq_take] at hmem
  obtain ⟨q, hq, hrecords⟩ := mem_tailValues.1 (List.mem_of_mem_take hmem)
  obtain ⟨block, hb, haccess⟩ := hr.access_of_tail hg (hpreds q hq) hrecords
  exact ⟨q, block, hb, (mem_accesses.1 haccess).1⟩

section Threaded

variable (hg : g.WellFormed) (hread : g.PhisOnlyRead)

include hg

/-- What blocks run are no phis, before and after. -/
theorem not_isPhi_of_runs (hn : g.Runs b n) : g.threadLocals.isPhi n = false := by
  obtain ⟨block, hb, hmem⟩ := hn
  exact (hg.rephrased_threadLocals.not_isPhi hg hb hmem).2

/-- The reads of the new graph use phis of their block and nodes before them. -/
theorem read_threadLocals (hb : g.threadLocals.block? b = some block) (hn : n ∈ block.nodes)
    (hnode : g.threadLocals.node? n = some node) (hkind : node.kind = .getLocal) :
    g.threadLocals.InRange node.children ∧ ∀ before after, block.nodes = before ++ n :: after →
      ∀ c ∈ g.threadLocals.operands node, c ∈ before ∨ c ∈ block.phis := by
  have hr := hg.rebuiltLocals
  have hcode := hg.rephrased_threadLocals
  rcases hr.block_cases hg hb with ⟨_, old, hold, hnodes, hpic⟩ | ⟨hnot, old, hold, hnodes, hphis⟩
  · rw [hnodes] at hn
    by_cases hfirst : n ∈ g.firstReads old.nodes
    · obtain ⟨p, hp, _, read, _, _, _, _, _, _, hlink⟩ := hpic.exists_phi hfirst
      rw [hnode] at hlink
      obtain rfl := Option.some.inj hlink
      refine ⟨trivial, fun _ _ _ c hc => .inr ?_⟩
      obtain rfl : c = p := by
        simpa [operands, edgesOf, Children.one, Edge.untyped, Edge.empty] using hc
      exact hp
    · obtain ⟨read, hold', hsame⟩ := hcode.node_of_mem hg hold hn hnode
      rw [hpic.later n hn hfirst read hold' (hsame.kind ▸ hkind)] at hnode
      obtain rfl := Option.some.inj hnode
      exact ⟨trivial, fun _ _ _ c hc => by
        simp [operands, edgesOf, Children.none, Edge.empty] at hc⟩
  · rw [hnodes] at hn
    rw [hr.node?_of_unreached hg hold hnot hn] at hnode
    have hok := (hg.block b old hold).node
    constructor
    · obtain ⟨before, after, hsplit⟩ := List.append_of_mem hn
      exact (hcode.inRange_iff _).2 (hok before n after hsplit node hnode).inRange
    · intro before after hsplit
      rw [hcode.operands_eq rfl, hphis]
      exact (hok before n after (hnodes ▸ hsplit) node hnode).visible

/-- What the lists of phis hold are phis. -/
theorem isPhi_threadLocals (hb : g.threadLocals.block? b = some block) (hn : n ∈ block.phis) :
    g.threadLocals.isPhi n = true := by
  have hr := hg.rebuiltLocals
  rcases hr.block_cases hg hb with ⟨_, _, _, _, hpic⟩ | ⟨_, old, hold, _, hphis⟩
  · obtain ⟨_, _, _, _, _, _, _, _, _, hphi, _⟩ := hpic.exists_read hn
    simp [isPhi, hphi, phiOf]
  · rw [hphis] at hn
    have hlt := hg.exists_node b old hold n (List.mem_append_left _ hn)
    rw [hr.isPhi_eq hg.rephrased_threadLocals hlt]
    exact (hg.block b old hold).phis n hn

theorem nodup_phis_threadLocals (hb : g.threadLocals.block? b = some block) : block.phis.Nodup := by
  rcases hg.rebuiltLocals.block_cases hg hb with ⟨_, _, _, _, hpic⟩ | ⟨_, old, hold, _, hphis⟩
  · exact hpic.nodup
  · rw [hphis]
    exact (List.nodup_append.1 (hg.nodup b old hold)).1

/-- The phis of a reachable block were listed nowhere before. -/
theorem notMem_phis_of_reached {other : Block} (hreached : g.flow.Reaches entry b)
    (hb : g.threadLocals.block? b = some block) (hn : n ∈ block.phis)
    (hother : g.block? c = some other) : n ∉ other.phis := by
  obtain ⟨_, _, _, hpic⟩ := hg.rebuiltLocals.exists_picture hg hreached hb
  exact fun hn' => Nat.not_lt.2 (hpic.fresh n hn)
    (hg.exists_node c other hother n (List.mem_append_left _ hn'))

/-- No two blocks share a phi: new ones are apart from each other, and from old ones by being
new. -/
theorem phis_apart_threadLocals {other : Block} (hb : g.threadLocals.block? b = some block)
    (hc : g.threadLocals.block? c = some other) (hn : n ∈ block.phis) (hn' : n ∈ other.phis) :
    b = c := by
  have hr := hg.rebuiltLocals
  rcases hr.block_cases hg hb with ⟨hreached, _⟩ | ⟨_, old, hold, _, hphis⟩ <;>
    rcases hr.block_cases hg hc with ⟨hreached', _⟩ | ⟨_, old', hold', _, hphis'⟩
  · exact hr.apart b c block other n hreached hreached' hb hc hn hn'
  · exact absurd (hphis' ▸ hn') (notMem_phis_of_reached hg hreached hb hn hold')
  · exact absurd (hphis ▸ hn) (notMem_phis_of_reached hg hreached' hc hn' hold)
  · exact hg.apart b old c old' n hold hold' (List.mem_append_left _ (hphis ▸ hn))
      (List.mem_append_left _ (hphis' ▸ hn'))

include hread

/-- The phis of the new graph use nodes that blocks run. -/
theorem phi_threadLocals (hb : g.threadLocals.block? b = some block) (hn : n ∈ block.phis)
    (hnode : g.threadLocals.node? n = some node) :
    g.threadLocals.InRange node.children ∧
      ∀ c ∈ g.threadLocals.operands node, ∃ d, g.Runs d c := by
  have hr := hg.rebuiltLocals
  have hcode := hg.rephrased_threadLocals
  rcases hr.block_cases hg hb with ⟨hreached, _⟩ | ⟨_, old, hold, _, hphis⟩
  · exact (hg.linked_threadLocals hreached hb hn).runs_of_operand hr hg
      (fun q hq => hr.reaches_of_mem_preds hcode hg hb hq) hnode
  · -- an unreachable block keeps its phis as they were
    rw [hphis] at hn
    obtain ⟨phi, hphi⟩ := exists_node? (hg.exists_node b old hold n (List.mem_append_left _ hn))
    have hkind := (isPhi_eq_true_iff hphi).1 ((hg.block b old hold).phis n hn)
    rw [hr.node?_of_ne_getLocal hphi (by simp [hkind])] at hnode
    obtain rfl := Option.some.inj hnode
    refine ⟨(hcode.inRange_iff _).2 ((hg.block b old hold).phi n hn phi hphi).inRange, ?_⟩
    rw [hcode.operands_eq rfl]
    exact fun c => hread.runs_of_phi hg hold hn hphi

/-- **The new phis and reads are in order.** -/
theorem phisInOrder_threadLocals : g.threadLocals.PhisInOrder where
  exists_phi := fun _ _ hb _ hn => isPhi_threadLocals hg hb hn
  nodup := fun _ _ hb => nodup_phis_threadLocals hg hb
  apart := fun _ _ _ _ _ hb hc hn hn' => phis_apart_threadLocals hg hb hc hn hn'
  phi := by
    intro b block hb n hn node hnode
    obtain ⟨hrange, hruns⟩ := phi_threadLocals hg hread hb hn hnode
    refine ⟨hrange, fun c hc => ?_⟩
    obtain ⟨d, hd⟩ := hruns c hc
    obtain ⟨other, hother, hmem⟩ := (rewired_threadLocals hg.arranged).runs_iff.2 hd
    exact ⟨d, other, hother, List.mem_append_right _ hmem⟩
  read := fun _ _ hb _ hn _ hnode => read_threadLocals hg hb hn hnode

theorem wellFormed_threadLocals : g.threadLocals.WellFormed :=
  wellFormed_of_rephrased hg (hread.phisForReads hg) hg.rephrased_threadLocals
    (phisInOrder_threadLocals hg hread)

/-- Only reads use phis, again. -/
theorem phisOnlyRead_threadLocals : g.threadLocals.PhisOnlyRead := by
  have hcode := hg.rephrased_threadLocals
  intro n hn node hnode hkind c hc
  obtain ⟨b, block, hb, hmem⟩ := mem_listing.1 hn
  rcases List.mem_append.1 hmem with hmem | hmem
  · obtain ⟨d, hd⟩ := (phi_threadLocals hg hread hb hmem hnode).2 c hc
    exact not_isPhi_of_runs hg hd
  · obtain ⟨old, hold, hnodes, _⟩ := hcode.block?_eq hb
    rw [hnodes] at hmem
    obtain ⟨node', hnode', hsame⟩ := hcode.node_of_mem hg hold hmem hnode
    obtain ⟨before, after, hsplit⟩ := List.append_of_mem hmem
    have hbefore := operands_of_rephrased hg (hread.phisForReads hg) hcode hold hsplit hnode' hsame
      hkind c hc
    exact not_isPhi_of_runs hg ⟨old, hold, by simp [hsplit, hbefore]⟩

end Threaded

/-! ## Added nodes -/

/-- The nodes from `bound` on are phis found so far. -/
def HoldsAdded (bound : Nat) (s : Threaded) : Prop :=
  ∀ n, bound ≤ n → n < s.graph.nodes.size → n ∈ s.phis

theorem HoldsAdded.step {bound : Nat} {s : Threaded} (hs : HoldsAdded bound s) (m : NodeId) :
    HoldsAdded bound (threadNode s m) := by
  rcases ThreadingOf.threadNode_cases s m with ⟨heq, _⟩ | ⟨_, _, _, _, hcase⟩
  · rwa [heq]
  rcases hcase with ⟨_, heq⟩ | ⟨_, _, heq⟩ | ⟨_, _, heq⟩
  · rwa [heq]
  · intro n hn hlt
    simp only [heq, modifyNode, Array.size_modify] at hlt ⊢
    exact hs n hn hlt
  · intro n hn hlt
    simp only [heq, modifyNode, addNode, Array.size_modify, Array.size_push] at hlt ⊢
    rcases Nat.lt_succ_iff_lt_or_eq.1 hlt with hlt | rfl
    · exact List.mem_append_left _ (hs n hn hlt)
    · simp

theorem HoldsAdded.run {bound : Nat} {s : Threaded} (hs : HoldsAdded bound s)
    (nodes : List NodeId) :
    HoldsAdded bound (nodes.foldl threadNode s) := by
  induction nodes generalizing s with
  | nil => exact hs
  | cons m nodes ih => exact ih (hs.step m)

/-- **One block.**  What is added are its phis, and no other block changes. -/
theorem hasPhi_threadBlock (hb : g.block? b = some block) :
    (∀ n, g.nodes.size ≤ n → n < (g.threadBlock b).nodes.size → (g.threadBlock b).HasPhi b n) ∧
    ∀ c ≠ b, (g.threadBlock b).block? c = g.block? c := by
  have hs : Threads g ⟨g, [], .ofLocals g.locals, .ofLocals g.locals⟩ := ⟨.refl g, rfl, by simp⟩
  have hadded : HoldsAdded g.nodes.size ⟨g, [], .ofLocals g.locals, .ofLocals g.locals⟩ :=
    fun _ hn hlt => absurd hlt (Nat.not_lt.2 hn)
  replace hs := hs.run block.nodes
  replace hadded := hadded.run block.nodes
  simp only [threadBlock, hb]
  generalize block.nodes.foldl threadNode _ = s at *
  have hblock : ∀ c, s.graph.block? c = g.block? c := fun c => by rw [block?, block?, hs.blocks]
  refine ⟨fun n hn hlt => ?_, fun c hc => ?_⟩
  · refine ⟨{ block with phis := s.phis, head := s.head, tail := s.tail }, ?_, hadded n hn hlt⟩
    rw [block?_modifyBlock, if_pos rfl, hblock, hb]
    rfl
  · rw [block?_modifyBlock, if_neg (Ne.symm hc), hblock]

/-- **All blocks.** -/
theorem hasPhi_foldl_threadBlock {ids : List BlockId} (hids : ids.Nodup)
    (hlive : ∀ b ∈ ids, ∃ block, g.block? b = some block) :
    (∀ n, g.nodes.size ≤ n → n < (ids.foldl threadBlock g).nodes.size →
      ∃ b ∈ ids, (ids.foldl threadBlock g).HasPhi b n) ∧
    ∀ c ∉ ids, (ids.foldl threadBlock g).block? c = g.block? c := by
  induction ids generalizing g with
  | nil => exact ⟨fun _ hn hlt => absurd hlt (Nat.not_lt.2 hn), fun _ _ => rfl⟩
  | cons b ids ih =>
    obtain ⟨block, hb⟩ := hlive b (List.mem_cons_self ..)
    obtain ⟨hnew, hsame⟩ := hasPhi_threadBlock hb
    obtain ⟨hnot, hids⟩ := List.nodup_cons.1 hids
    obtain ⟨hrest, hkeep⟩ := ih (g := g.threadBlock b) hids fun c hc => by
      rw [hsame c fun h => hnot (h ▸ hc)]
      exact hlive c (List.mem_cons_of_mem _ hc)
    refine ⟨fun n hn hlt => ?_, fun c hc => ?_⟩
    · by_cases hadded : n < (g.threadBlock b).nodes.size
      · obtain ⟨copy, hcopy, hmem⟩ := hnew n hn hadded
        exact ⟨b, List.mem_cons_self .., copy, (hkeep b hnot).trans hcopy, hmem⟩
      · obtain ⟨c, hc, hphi⟩ := hrest n (Nat.not_lt.1 hadded) hlt
        exact ⟨c, List.mem_cons_of_mem _ hc, hphi⟩
    · rw [List.mem_cons, not_or] at hc
      exact (hkeep c hc.2).trans (hsame c hc.1)

theorem size_foldl_linkPhi (preds : List BlockId) (phis : List NodeId) :
    (phis.foldl (linkPhi preds) g).nodes.size = g.nodes.size := by
  induction phis generalizing g with
  | nil => rfl
  | cons p phis ih =>
    rw [List.foldl_cons, ih, linkPhi]
    split
    · rfl
    · simp [modifyNode]

theorem size_foldl_linkPhis (ids : List BlockId) :
    (ids.foldl linkPhis g).nodes.size = g.nodes.size := by
  induction ids generalizing g with
  | nil => rfl
  | cons b ids ih =>
    rw [List.foldl_cons, ih, linkPhis]
    split
    · rfl
    · exact size_foldl_linkPhi _ _

/-- **The nodes that threading adds** are phis of blocks. -/
theorem WellFormed.hasPhi_threadLocals (hg : g.WellFormed) (hn : g.nodes.size ≤ n)
    (hlt : n < g.threadLocals.nodes.size) : ∃ b, g.threadLocals.HasPhi b n := by
  have hsize : g.resetReachability.nodes.size = g.nodes.size := by
    rw [resetReachability_eq hg.entry_live]
    rfl
  have hnumbered := hg.resetReachability.numbered
  have hadded := (hasPhi_foldl_threadBlock (nodup_reachableIds hnumbered)
    fun b hb => exists_block_of_reachableIds hnumbered hb).1 n (hsize ▸ hn)
  rw [threadLocals] at hlt ⊢
  generalize g.resetReachability.reachableIds = ids at *
  generalize ids.foldl threadBlock g.resetReachability = k at *
  have hlink : Relinked 0 k (ids.foldl linkPhis k) :=
    .foldl_linkPhis fun _ _ _ _ _ _ => Nat.zero_le _
  have hlt' : n < k.nodes.size := by
    rw [← size_foldl_linkPhis (g := k) ids]
    exact hlt
  obtain ⟨b, _, block, hb, hmem⟩ := hadded hlt'
  exact ⟨b, block, (hlink.block?_eq b).trans hb, hmem⟩

/-- No node whose operands existed comes to use a phi, listed or not. -/
theorem usesNoPhi_threadLocals (hg : g.WellFormed) (hread : g.PhisOnlyRead)
    (hall : ∀ n node, g.node? n = some node → g.UsesNoPhi node)
    (hnode : g.threadLocals.node? n = some node)
    (hexists : ∀ c ∈ g.threadLocals.operands node, c < g.nodes.size) :
    g.threadLocals.UsesNoPhi node := by
  have hcode := hg.rephrased_threadLocals
  by_cases hn : n < g.nodes.size
  · intro hkind c hc
    obtain ⟨old, hold⟩ := exists_node? hn
    have hkind' : old.kind ≠ .getLocal := by
      intro hget
      obtain ⟨image, himage, hsame⟩ := hcode.node n old hold (by simp [hget])
      rw [hnode] at himage
      obtain rfl := Option.some.inj himage
      exact hkind (hsame.kind.trans hget)
    rw [hg.rebuiltLocals.node?_of_ne_getLocal hold hkind'] at hnode
    obtain rfl := Option.some.inj hnode
    rw [hg.rebuiltLocals.isPhi_eq hcode (hexists c hc)]
    rw [hcode.operands_eq rfl] at hc
    exact hall n old hold hkind' c hc
  · obtain ⟨b, block, hb, hmem⟩ :=
      hg.hasPhi_threadLocals (Nat.not_lt.1 hn) (lt_size_of_node? hnode)
    exact phisOnlyRead_threadLocals hg hread n
      (mem_listing.2 ⟨b, block, hb, List.mem_append_left _ hmem⟩) node hnode

/-! ## Built graphs -/

/-- A graph under construction has no phis to use. -/
theorem Draft.phisOnlyRead (hg : g.Draft) (hw : g.WellFormed) : g.PhisOnlyRead := by
  intro n hn node hnode _ c hc
  obtain ⟨b, block, hb, hmem⟩ := mem_listing.1 hn
  rw [hg.phis b block hb, List.nil_append] at hmem
  obtain ⟨before, after, hsplit⟩ := List.append_of_mem hmem
  have hok := hw.block b block hb
  rcases (hok.node before n after hsplit node hnode).visible c hc with hc | hc
  · exact hok.nodes c (by simp [hsplit, hc])
  · rw [hg.phis b block hb] at hc
    cases hc

end Graph

end Unroller
