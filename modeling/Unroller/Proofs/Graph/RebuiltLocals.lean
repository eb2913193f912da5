import Mathlib.Tactic
import Unroller.Proofs.Graph.LocalPicture
import Unroller.Proofs.Graph.Rules

/-!
# Threading a whole graph

What threading does to a valid graph, block by block and node by node.  Nothing is asked about phis
and operands that an earlier threading left behind.

* `Rebuilding.step`, `Rebuilding.run`: one more block, a list of blocks; what was done to a block is
  not undone by later ones, since no node is listed in two blocks and all phis are new.
* `Relinked`: linking the phis afterwards changes nothing but operands of new nodes.
* `threadLocals_rebuilds`: every reachable block comes to have its picture, and all else stays.
-/

namespace Unroller.Graph

variable {g h k : Graph} {b c : BlockId} {n p : NodeId} {node : Node} {block other : Block}
  {done ids : List BlockId} {bound : Nat}

/-! ## Recorded reachability -/

/-- Recorded reachability has no part in being well-formed. -/
theorem WellFormed.withReach (hg : g.WellFormed) (r : BlockId → Bool) (p : BlockId → List BlockId) :
    (g.withReach r p).WellFormed := by
  have hold : ∀ {b block}, (g.withReach r p).block? b = some block →
      ∃ old, g.block? b = some old ∧ old.withReach (r b) (p b) = block := by
    intro b block hb
    rwa [block?_withReach, Option.map_eq_some_iff] at hb
  refine
    { entry_live := by simpa using hg.entry_live
      numbered := ?numbered
      exists_node := ?exists_node
      nodup := ?nodup
      apart := ?apart
      block := ?block }
  case numbered =>
    intro b block hb
    obtain ⟨old, hb', rfl⟩ := hold hb
    exact hg.numbered b old hb'
  case exists_node =>
    intro b block hb
    obtain ⟨old, hb', rfl⟩ := hold hb
    exact hg.exists_node b old hb'
  case nodup =>
    intro b block hb
    obtain ⟨old, hb', rfl⟩ := hold hb
    exact hg.nodup b old hb'
  case apart =>
    intro b block c other n hb hc
    obtain ⟨old, hb', rfl⟩ := hold hb
    obtain ⟨old', hc', rfl⟩ := hold hc
    exact hg.apart b old c old' n hb' hc'
  case block =>
    intro b block hb
    obtain ⟨old, hb', rfl⟩ := hold hb
    have hok := hg.block b old hb'
    refine
      { phis := hok.phis
        nodes := hok.nodes
        ne_nil := hok.ne_nil
        node := ?node
        phi := ?phi
        pad := hok.pad
        successor := ?successor }
    case node =>
      intro before n after hsplit node hnode
      obtain ⟨hterminal, hadmits, hrange, hvisible⟩ := hok.node before n after hsplit node hnode
      exact ⟨hterminal, hadmits, hrange, hvisible⟩
    case phi =>
      intro n hn node hnode
      obtain ⟨hrange, hlisted⟩ := hok.phi n hn node hnode
      refine ⟨hrange, fun c hc => ?_⟩
      obtain ⟨d, other, hd, hmem⟩ := hlisted c hc
      exact ⟨d, other.withReach (r d) (p d), by simp [hd], hmem⟩
    case successor =>
      have hcount : (g.withReach r p).successorCount b = g.successorCount b :=
        successorCount_congr rfl (congrArg _ (g.terminalNode?_withReach r p b))
      intro slot hslot
      rw [hcount] at hslot
      simpa using hok.successor slot hslot

theorem mem_reachableIds (hg : g.Numbered) :
    b ∈ g.reachableIds ↔ ∃ block, g.block? b = some block ∧ block.flags.reachable = true := by
  rw [reachableIds, hg.map_index]
  simp only [List.mem_map, List.mem_filter, Prod.exists, exists_and_right, exists_eq_right,
    mem_liveBlocks]

theorem exists_block_of_reachableIds (hg : g.Numbered) (hb : b ∈ g.reachableIds) :
    ∃ block, g.block? b = some block := by
  obtain ⟨block, hblock, _⟩ := (mem_reachableIds hg).1 hb
  exact ⟨block, hblock⟩

theorem nodup_reachableIds (hg : g.Numbered) : g.reachableIds.Nodup := by
  rw [reachableIds, hg.map_index]
  exact List.pairwise_map.2 (g.pairwise_liveBlocks.filter _)

/-! ## One block after the other -/

/-- What is known when the blocks `done` of `g` have been gone through. -/
structure Rebuilding (g : Graph) (done : List BlockId) (h : Graph) : Prop where
  rest : h = { g with nodes := h.nodes, blocks := h.blocks }
  slots : h.blocks.size = g.blocks.size
  size : g.nodes.size ≤ h.nodes.size
  ahead : ∀ b ∉ done, h.block? b = g.block? b
  rebuilt : ∀ b ∈ done, ∃ block phis head tail, g.block? b = some block ∧
    h.block? b = some { block with phis := phis, head := head, tail := tail } ∧
      LocalPicture g h block.nodes phis head tail
  apart : ∀ b ∈ done, ∀ c ∈ done, ∀ block other p, h.block? b = some block →
    h.block? c = some other → p ∈ block.phis → p ∈ other.phis → b = c
  other : ∀ n node, g.node? n = some node → (∀ b ∈ done, ∀ block, g.block? b = some block →
    n ∈ block.nodes → node.kind ≠ .getLocal) → h.node? n = some node

namespace Rebuilding

theorem start (g : Graph) : Rebuilding g [] g :=
  ⟨rfl, rfl, Nat.le_refl _, fun _ _ => rfl, by simp, by simp, fun _ _ hnode _ => hnode⟩

/-- A phi of a block gone through is a node that was added. -/
theorem phi_bounds (hr : Rebuilding g done h) (hc : c ∈ done) (hother : h.block? c = some other)
    (hp : p ∈ other.phis) : g.nodes.size ≤ p ∧ p < h.nodes.size := by
  obtain ⟨old, phis, head, tail, _, hnew, hpic⟩ := hr.rebuilt c hc
  rw [hother] at hnew
  obtain rfl := Option.some.inj hnew
  exact ⟨hpic.fresh p hp, hpic.lt_size hp⟩

/-- The nodes of a block that is still ahead are as they were. -/
theorem node?_ahead (hr : Rebuilding g done h) (hg : g.WellFormed) (hb : g.block? b = some block)
    (hnot : b ∉ done) (hn : n ∈ block.nodes) : h.node? n = g.node? n := by
  obtain ⟨node, hnode⟩ := exists_node? (hg.exists_node b block hb n (List.mem_append_right _ hn))
  rw [hnode]
  refine hr.other n node hnode fun c hc other hother hn' => absurd hc ?_
  rw [← hg.apart b block c other n hb hother (List.mem_append_right _ hn)
    (List.mem_append_right _ hn')]
  exact hnot

variable {phis : List NodeId} {head tail : Snapshot}

/-- The picture of a block gone through stays when another block is. -/
theorem picture_stays (hr : Rebuilding g done h) (hg : g.WellFormed) (hb : g.block? b = some block)
    (hk : Pictured h b block k phis head tail) (hc : g.block? c = some other) (hne : c ≠ b)
    {phis' : List NodeId} {head' tail' : Snapshot}
    (hpic : LocalPicture g h other.nodes phis' head' tail') :
    LocalPicture g k other.nodes phis' head' tail' := by
  refine hpic.transfer (Nat.le_refl _) (fun _ _ => rfl) (fun n hn => ?_) fun p hp node hnode => ?_
  · have hlt := hg.exists_node c other hc n (List.mem_append_right _ hn)
    obtain ⟨node, hnode⟩ := exists_node? (Nat.lt_of_lt_of_le hlt hr.size)
    rw [hnode]
    refine hk.other n node hnode fun hn' => absurd ?_ hne
    exact hg.apart c other b block n hc hb (List.mem_append_right _ hn)
      (List.mem_append_right _ hn')
  · refine ⟨node.children, hk.other p node hnode fun hn' => absurd (hpic.fresh p hp) ?_⟩
    exact Nat.not_le.2 (hg.exists_node b block hb p (List.mem_append_right _ hn'))

/-- **One more block.** -/
theorem step (hr : Rebuilding g done h) (hg : g.WellFormed) (hb : g.block? b = some block)
    (hnot : b ∉ done) : Rebuilding g (done ++ [b]) (h.threadBlock b) := by
  have hb' : h.block? b = some block := (hr.ahead b hnot).trans hb
  have hsame : ∀ n ∈ block.nodes, h.node? n = g.node? n :=
    fun n hn => hr.node?_ahead hg hb hnot hn
  have hnodes : ∀ n ∈ block.nodes, ∃ node, h.node? n = some node ∧
      (node.kind = .getLocal → node.slot?.isSome = true) := by
    intro n hn
    obtain ⟨node, hnode⟩ := exists_node? (hg.exists_node b block hb n (List.mem_append_right _ hn))
    exact ⟨node, (hsame n hn).trans hnode, hg.isSome_slot? hb hn hnode⟩
  have hnodup := (List.nodup_append.1 (hg.nodup b block hb)).2.1
  obtain ⟨phis, head, tail, hk⟩ := pictured_threadBlock hb' hnodup hnodes
  have hkeep : ∀ c ∈ done, (h.threadBlock b).block? c = h.block? c := by
    intro c hc
    rw [hk.block?, if_neg]
    rintro rfl
    exact hnot hc
  have hnew : (h.threadBlock b).block? b =
      some { block with phis := phis, head := head, tail := tail } := by
    rw [hk.block?, if_pos rfl]
  refine
    { rest := by rw [hk.rest, hr.rest]
      slots := hk.slots.trans hr.slots
      size := hr.size.trans hk.size
      ahead := ?ahead
      rebuilt := ?rebuilt
      apart := ?apart
      other := ?other }
  case ahead =>
    intro c hc
    rw [List.mem_append, not_or, List.mem_singleton] at hc
    rw [hk.block?, if_neg (Ne.symm hc.2), hr.ahead c hc.1]
  case rebuilt =>
    intro c hc
    rcases List.mem_append.1 hc with hc | hc
    · obtain ⟨other, phis', head', tail', hother, hold, hpic⟩ := hr.rebuilt c hc
      refine ⟨other, phis', head', tail', hother, (hkeep c hc).trans hold, ?_⟩
      exact hr.picture_stays hg hb hk hother (fun h => hnot (h ▸ hc)) hpic
    · obtain rfl := List.mem_singleton.1 hc
      refine ⟨block, phis, head, tail, hb, hnew, ?_⟩
      exact hk.picture.transfer hr.size (fun n hn => (hsame n hn).symm) (fun _ _ => rfl)
        fun _ _ node hnode => ⟨node.children, hnode⟩
  case apart =>
    -- the phis of the new block stand behind all there were
    have hbehind : ∀ c ∈ done, ∀ other p, (h.threadBlock b).block? c = some other →
        p ∈ other.phis → p ∉ phis := by
      intro c hc other p hother hp hmem
      rw [hkeep c hc] at hother
      exact Nat.not_le.2 (hr.phi_bounds hc hother hp).2 (hk.picture.fresh p hmem)
    intro c hc d hd block' other p hblock' hother hp hp'
    rw [List.mem_append, List.mem_singleton] at hc hd
    rcases hc with hc | rfl <;> rcases hd with hd | rfl
    · rw [hkeep c hc] at hblock'
      rw [hkeep d hd] at hother
      exact hr.apart c hc d hd block' other p hblock' hother hp hp'
    · rw [hnew] at hother
      obtain rfl := Option.some.inj hother
      exact absurd hp' (hbehind c hc block' p hblock' hp)
    · rw [hnew] at hblock'
      obtain rfl := Option.some.inj hblock'
      exact absurd hp (hbehind d hd other p hother hp')
    · rfl
  case other =>
    intro n node hnode hread
    have hold := hr.other n node hnode fun c hc => hread c (List.mem_append_left _ hc)
    exact hk.other n node hold (hread b (by simp) block hb)

/-- **A list of blocks.** -/
theorem run (hr : Rebuilding g done h) (hg : g.WellFormed) (hnodup : (done ++ ids).Nodup)
    (hlive : ∀ b ∈ ids, ∃ block, g.block? b = some block) :
    Rebuilding g (done ++ ids) (ids.foldl threadBlock h) := by
  induction ids generalizing done h with
  | nil => simpa using hr
  | cons b ids ih =>
    obtain ⟨block, hb⟩ := hlive b (List.mem_cons_self ..)
    have hnot : b ∉ done := by
      intro hmem
      exact (List.nodup_append.1 hnodup).2.2 b hmem b (List.mem_cons_self ..) rfl
    have hrest := ih (hr.step hg hb hnot) (by simpa using hnodup)
      fun c hc => hlive c (List.mem_cons_of_mem _ hc)
    simpa using hrest

/-- What does not depend on phis and snapshots is the same in every block. -/
theorem map_block? {α : Type} (hr : Rebuilding g done h) (f : Block → α)
    (hf : ∀ block phis head tail,
      f { block with phis := phis, head := head, tail := tail } = f block)
    (b : BlockId) : (h.block? b).map f = (g.block? b).map f := by
  by_cases hb : b ∈ done
  · obtain ⟨block, _, _, _, hold, hnew, _⟩ := hr.rebuilt b hb
    rw [hold, hnew, Option.map_some, Option.map_some, hf]
  · rw [hr.ahead b hb]

/-- Recorded reachability is kept. -/
theorem reachOf_eq (hr : Rebuilding g done h) (b : BlockId) :
    (h.block? b).map reachOf = (g.block? b).map reachOf :=
  hr.map_block? reachOf (fun _ _ _ _ => rfl) b

/-- Whatever blocks were gone through, they run what they ran. -/
theorem rephrased (hr : Rebuilding g done h) : Rephrased g h := by
  have hrest := hr.rest
  refine ⟨hr.slots, hr.map_block? codeOf fun _ _ _ _ => rfl, by rw [hrest], by rw [hrest],
    by rw [hrest], by rw [hrest], by rw [hrest], fun n node hnode _ => ?_⟩
  by_cases hread : ∀ b ∈ done, ∀ block, g.block? b = some block → n ∈ block.nodes →
      node.kind ≠ .getLocal
  · exact ⟨node, hr.other n node hnode hread, .refl node⟩
  · push Not at hread
    obtain ⟨b, hb, block, hblock, hn, hkind⟩ := hread
    obtain ⟨old, phis, head, tail, hold, _, hpic⟩ := hr.rebuilt b hb
    rw [hblock] at hold
    obtain rfl := Option.some.inj hold
    exact hpic.sameNode hn hnode hkind

end Rebuilding

/-! ## Linking -/

/-- Two graphs that differ in the operands of nodes from `bound` on only. -/
structure Relinked (bound : Nat) (g h : Graph) : Prop where
  rest : h = { g with nodes := h.nodes }
  old : ∀ n < bound, h.node? n = g.node? n
  node : ∀ n node, g.node? n = some node → ∃ c, h.node? n = some { node with children := c }

namespace Relinked

theorem refl (bound : Nat) (g : Graph) : Relinked bound g g :=
  ⟨rfl, fun _ _ => rfl, fun _ node hnode => ⟨node.children, hnode⟩⟩

theorem trans (h₁ : Relinked bound g h) (h₂ : Relinked bound h k) : Relinked bound g k := by
  refine ⟨by rw [h₂.rest, h₁.rest], fun n hn => (h₂.old n hn).trans (h₁.old n hn), ?_⟩
  intro n node hnode
  obtain ⟨_, himage⟩ := h₁.node n node hnode
  obtain ⟨c, himage'⟩ := h₂.node n _ himage
  exact ⟨c, himage'⟩

theorem block?_eq (hl : Relinked bound g h) (b : BlockId) : h.block? b = g.block? b := by
  rw [hl.rest]
  rfl

theorem linkPhi (preds : List BlockId) (hp : bound ≤ p) :
    Relinked bound g (linkPhi preds g p) := by
  rw [Graph.linkPhi]
  split
  · exact .refl bound g
  refine ⟨rfl, fun n hn => ?_, fun n node hnode => ?_⟩
  · simp [Nat.ne_of_gt (Nat.lt_of_lt_of_le hn hp)]
  · by_cases hne : p = n
    · exact ⟨_, by rw [node?_modifyNode, if_pos hne, hnode]; rfl⟩
    · exact ⟨node.children, by simp [hne, hnode]⟩

theorem foldl_linkPhi (preds : List BlockId) {phis : List NodeId} (hphis : ∀ p ∈ phis, bound ≤ p) :
    Relinked bound g (phis.foldl (Graph.linkPhi preds) g) := by
  induction phis generalizing g with
  | nil => exact .refl bound g
  | cons p phis ih =>
    exact (linkPhi preds (hphis p (List.mem_cons_self ..))).trans
      (ih fun q hq => hphis q (List.mem_cons_of_mem _ hq))

/-- Linking the phis of some blocks, all of them new. -/
theorem foldl_linkPhis (hphis : ∀ b ∈ ids, ∀ block, g.block? b = some block → ∀ p ∈ block.phis,
    bound ≤ p) : Relinked bound g (ids.foldl linkPhis g) := by
  induction ids generalizing g with
  | nil => exact .refl bound g
  | cons b ids ih =>
    have hstep : Relinked bound g (g.linkPhis b) := by
      rw [linkPhis]
      split
      · exact .refl bound g
      · rename_i block hb
        exact foldl_linkPhi block.preds (hphis b (List.mem_cons_self ..) block hb)
    refine hstep.trans (ih fun c hc block hblock => ?_)
    rw [hstep.block?_eq] at hblock
    exact hphis c (List.mem_cons_of_mem _ hc) block hblock

end Relinked

/-- **Both passes.**  Linking the new phis leaves the pictures as they are. -/
theorem Rebuilding.linked (hr : Rebuilding g done h) (hg : g.WellFormed)
    (hl : Relinked g.nodes.size h k) : Rebuilding g done k := by
  have hsize : h.nodes.size ≤ k.nodes.size := by
    by_contra hlt
    obtain ⟨node, hnode⟩ := exists_node? (Nat.not_le.1 hlt)
    obtain ⟨_, hnode'⟩ := hl.node _ node hnode
    exact Nat.lt_irrefl _ (lt_size_of_node? hnode')
  refine
    { rest := by rw [hl.rest, hr.rest]
      slots := by rw [hl.rest, hr.slots]
      size := hr.size.trans hsize
      ahead := ?ahead
      rebuilt := ?rebuilt
      apart := ?apart
      other := ?other }
  case ahead =>
    intro b hb
    rw [hl.block?_eq, hr.ahead b hb]
  case rebuilt =>
    intro b hb
    obtain ⟨block, phis, head, tail, hblock, hnew, hpic⟩ := hr.rebuilt b hb
    refine ⟨block, phis, head, tail, hblock, (hl.block?_eq b).trans hnew, ?_⟩
    refine hpic.transfer (Nat.le_refl _) (fun _ _ => rfl) (fun n hn => ?_) fun p _ => hl.node p
    exact hl.old n (hg.exists_node b block hblock n (List.mem_append_right _ hn))
  case apart =>
    intro b hb c hc block other p hblock hother
    rw [hl.block?_eq] at hblock hother
    exact hr.apart b hb c hc block other p hblock hother
  case other =>
    intro n node hnode hread
    rw [hl.old n (lt_size_of_node? hnode)]
    exact hr.other n node hnode hread

/-- **The first pass** over the blocks marked reachable. -/
theorem rebuilding_foldl_threadBlock (hg : g.WellFormed) :
    Rebuilding g g.reachableIds (g.reachableIds.foldl threadBlock g) := by
  have hr := (Rebuilding.start g).run hg (by simpa using nodup_reachableIds hg.numbered)
    fun b hb => exists_block_of_reachableIds hg.numbered hb
  simpa only [List.nil_append] using hr

/-- **Both passes** over the blocks marked reachable. -/
theorem rebuilding_passes (hg : g.WellFormed) : Rebuilding g g.reachableIds
    (g.reachableIds.foldl linkPhis (g.reachableIds.foldl threadBlock g)) := by
  have hr := rebuilding_foldl_threadBlock hg
  exact hr.linked hg (.foldl_linkPhis fun b hb block hblock p hp => (hr.phi_bounds hb hblock hp).1)

/-! ## The whole graph -/

/-- The graph `h` is `g` with the locals of all reachable blocks threaded anew. -/
structure RebuiltLocals (g h : Graph) : Prop where
  form : h.form = .threaded
  /-- Nothing changes but the form, nodes and blocks. -/
  rest : h = { g with form := h.form, nodes := h.nodes, blocks := h.blocks }
  isLive : ∀ b, h.isLive b = g.isLive b
  successor : ∀ b slot, h.successor? b slot = g.successor? b slot
  successors : ∀ b, h.successors b = g.successors b
  /-- Reachability flags and predecessor lists are right. -/
  reachExact : h.ReachExact
  /-- An unreachable block stays as it is otherwise. -/
  unreached : ∀ b block, g.block? b = some block → ¬ g.flow.Reaches entry b →
    ∃ preds, h.block? b = some (block.withReach false preds)
  /-- A reachable block has its picture, and stays as it is otherwise. -/
  reached : ∀ b block, g.block? b = some block → g.flow.Reaches entry b → ∃ preds phis head tail,
    h.block? b =
      some { block.withReach true preds with phis := phis, head := head, tail := tail } ∧
    LocalPicture g h block.nodes phis head tail
  /-- No two reachable blocks share a phi. -/
  apart : ∀ b c block other p, g.flow.Reaches entry b → g.flow.Reaches entry c →
    h.block? b = some block → h.block? c = some other → p ∈ block.phis → p ∈ other.phis → b = c
  /-- A node that was there stays as it is, unless it is a read that a reachable block lists. -/
  other : ∀ n node, g.node? n = some node → (∀ b block, g.block? b = some block →
    g.flow.Reaches entry b → n ∈ block.nodes → node.kind ≠ .getLocal) → h.node? n = some node

/-- Going through the reachable blocks of a graph whose marks are right. -/
theorem Rebuilding.rebuiltLocals {r : BlockId → Bool} {p : BlockId → List BlockId}
    (hr : Rebuilding (g.withReach r p) ids k) (hg : g.WellFormed)
    (hexact : (g.withReach r p).ReachExact) (hmark : ∀ b, r b = true ↔ g.flow.Reaches entry b)
    (hids : ∀ b, b ∈ ids ↔ g.flow.Reaches entry b) :
    RebuiltLocals g { k with form := .threaded } := by
  have hreach := hg.withReach r p
  have hphrased := hr.rephrased.trans (recast_form k .threaded).toRephrased
  refine
    { form := rfl
      rest := ?rest
      isLive := ?isLive
      successor := ?successor
      successors := ?successors
      reachExact := hphrased.reachExact hreach hexact hr.reachOf_eq
      unreached := ?unreached
      reached := ?reached
      apart := ?apart
      other := ?other }
  case rest =>
    rw [hr.rest]
    rfl
  case isLive =>
    intro b
    rw [hphrased.isLive_eq, isLive_withReach]
  case successor =>
    intro b slot
    rw [hphrased.successor?_eq hreach, successor?_withReach]
  case successors =>
    intro b
    rw [hphrased.successors_eq hreach, successors_withReach]
  case unreached =>
    intro b block hb hnot
    have hflag : r b = false := by
      rw [← Bool.not_eq_true, hmark]
      exact hnot
    refine ⟨p b, ?_⟩
    show k.block? b = _
    rw [hr.ahead b (mt (hids b).1 hnot), block?_withReach, hb, hflag]
    rfl
  case reached =>
    intro b block hb hreached
    obtain ⟨old, phis, head, tail, hold, hnew, hpic⟩ := hr.rebuilt b ((hids b).2 hreached)
    rw [block?_withReach, hb, (hmark b).2 hreached] at hold
    obtain rfl := Option.some.inj hold
    refine ⟨p b, phis, head, tail, hnew, ?_⟩
    exact hpic.transfer (Nat.le_refl _) (fun _ _ => rfl) (fun _ _ => rfl)
      fun _ _ node hnode => ⟨node.children, hnode⟩
  case apart =>
    intro b c block other q hb hc
    exact hr.apart b ((hids b).2 hb) c ((hids c).2 hc) block other q
  case other =>
    intro n node hnode hread
    refine hr.other n node hnode fun b hb block hblock hn => ?_
    rw [block?_withReach, Option.map_eq_some_iff] at hblock
    obtain ⟨old, hold, rfl⟩ := hblock
    exact hread b old hold ((hids b).1 hb) hn

theorem WellFormed.resetReachability (hg : g.WellFormed) : g.resetReachability.WellFormed := by
  rw [resetReachability_eq hg.entry_live]
  exact hg.withReach _ _

/-- Threading goes through the reachable blocks. -/
theorem WellFormed.mem_reachableIds (hg : g.WellFormed) :
    b ∈ g.resetReachability.reachableIds ↔ g.flow.Reaches entry b := by
  rw [Graph.mem_reachableIds hg.resetReachability.numbered, resetReachability_eq hg.entry_live,
    block?_withReach]
  constructor
  · rintro ⟨block, hb, hflag⟩
    obtain ⟨old, _, rfl⟩ := Option.map_eq_some_iff.1 hb
    simpa [Block.withReach, Digraph.mem_pushOrder] using hflag
  · intro hreached
    obtain ⟨block, hb⟩ := isLive_iff.1 (hg.isLive_of_reaches hreached)
    rw [hb]
    exact ⟨_, rfl, by simpa [Block.withReach, Digraph.mem_pushOrder] using hreached⟩

/-- Threading changes none of the code. -/
theorem WellFormed.rephrased_threadLocals (hg : g.WellFormed) : Rephrased g g.threadLocals :=
  ((Recast.resetReachability hg.entry_live).toRephrased.trans
    (rebuilding_passes hg.resetReachability).rephrased).trans (recast_form _ .threaded).toRephrased

theorem WellFormed.rebuiltLocals (hg : g.WellFormed) : RebuiltLocals g g.threadLocals := by
  have hexact := reachExact_resetReachability hg.entry_live
  have hids : ∀ b, b ∈ g.resetReachability.reachableIds ↔ g.flow.Reaches entry b :=
    fun b => hg.mem_reachableIds
  rw [threadLocals]
  rw [resetReachability_eq hg.entry_live] at hexact hids ⊢
  exact (rebuilding_passes (hg.withReach _ _)).rebuiltLocals hg hexact
    (fun b => by simp [Digraph.mem_pushOrder]) hids

end Unroller.Graph
