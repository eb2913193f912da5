import Mathlib.Tactic
import Unroller.Proofs.Graph.Sustaining

/-!
# Changing what no run looks at

Threading and leaving threaded form rewrite nodes that a run may come to: reads get other operands,
phis are added, and listed phis get operands or lose them.  In any graph whose lists are in order,
be it valid or not, the nodes that blocks run stay the same but for the operands of reads.

* `Arranged`: listed nodes exist, and none is both a phi of a block and a node that a block runs;
  moving blocks about keeps it so.
* `Rewired`: blocks run the same nodes, which do the same; it composes, and keeps a graph arranged.
* `rewired_threadBlock`, `rewired_linkPhis`: the two passes of threading.
* `rewired_threadLocals`, `rewired_dethread`: both operations as a whole.
-/

namespace Unroller.Graph

variable {g h k : Graph} {b c : BlockId} {m n p : NodeId} {node image : Node} {block : Block}

/-! ## Lists in order -/

/-- No listed node is missing, and no phi of a block is a node that a block runs. -/
structure Arranged (g : Graph) : Prop where
  phi_lt : ∀ b p, g.HasPhi b p → p < g.nodes.size
  run_lt : ∀ b n, g.Runs b n → n < g.nodes.size
  apart : ∀ b c n, g.HasPhi b n → ¬ g.Runs c n

theorem Arranged.noneMissing (hg : g.Arranged) : g.NoneMissing := by
  intro b block hb n hn
  rcases List.mem_append.1 hn with hn | hn
  · exact hg.phi_lt b n ⟨block, hb, hn⟩
  · exact hg.run_lt b n ⟨block, hb, hn⟩

theorem NoneMissing.phi_lt (hg : g.NoneMissing) (b : BlockId) (p : NodeId) (hp : g.HasPhi b p) :
    p < g.nodes.size := by
  obtain ⟨block, hb, hp⟩ := hp
  exact hg b block hb p (List.mem_append_left _ hp)

theorem NoneMissing.run_lt (hg : g.NoneMissing) (b : BlockId) (n : NodeId) (hn : g.Runs b n) :
    n < g.nodes.size := by
  obtain ⟨block, hb, hn⟩ := hn
  exact hg b block hb n (List.mem_append_right _ hn)

theorem WellFormed.arranged (hg : g.WellFormed) : g.Arranged where
  phi_lt := fun b p ⟨block, hb, hp⟩ => hg.exists_node b block hb p (List.mem_append_left _ hp)
  run_lt := fun b n ⟨block, hb, hn⟩ => hg.exists_node b block hb n (List.mem_append_right _ hn)
  apart := by
    rintro b c n ⟨block, hb, hp⟩ ⟨other, hc, hn⟩
    have hphi := (hg.block b block hb).phis n hp
    rw [(hg.block c other hc).nodes n hn] at hphi
    cases hphi

theorem Arranged.exists_node (hg : g.Arranged) (hn : g.Runs b n) : ∃ node, g.node? n = some node :=
  exists_node? (hg.run_lt b n hn)

/-- The lists stay in order when a block is put into the slot of another one. -/
theorem Arranged.putBlock (hg : g.Arranged) (hc : g.block? c = some block) (b : Nat) :
    Arranged { g with blocks := g.blocks.setIfInBounds b (some block) } := by
  have hfrom : ∀ d copy, Graph.block? { g with blocks := g.blocks.setIfInBounds b (some block) } d =
      some copy → ∃ e, g.block? e = some copy := by
    intro d copy hd
    simp only [Graph.block?, Array.getD_eq_getD_getElem?, Array.getElem?_setIfInBounds] at hd
    split at hd
    · split at hd
      · exact ⟨c, hc.trans hd⟩
      · cases hd
    · exact ⟨d, by simpa [Graph.block?, Array.getD_eq_getD_getElem?] using hd⟩
  refine ⟨?_, ?_, ?_⟩
  · rintro d p ⟨copy, hd, hp⟩
    obtain ⟨e, he⟩ := hfrom d copy hd
    exact hg.phi_lt e p ⟨copy, he, hp⟩
  · rintro d n ⟨copy, hd, hn⟩
    obtain ⟨e, he⟩ := hfrom d copy hd
    exact hg.run_lt e n ⟨copy, he, hn⟩
  · rintro d d' n ⟨copy, hd, hp⟩ ⟨copy', hd', hn⟩
    obtain ⟨e, he⟩ := hfrom d copy hd
    obtain ⟨e', he'⟩ := hfrom d' copy' hd'
    exact hg.apart e e' n ⟨copy, he, hp⟩ ⟨copy', he', hn⟩

/-! ## Rewiring -/

/-- Every block has the same index and runs the same nodes as before, and these do the same; phis
that were not listed before are new. -/
structure Rewired (g h : Graph) : Prop where
  size : g.nodes.size ≤ h.nodes.size
  nodes : ∀ b, (h.block? b).map Block.nodes = (g.block? b).map Block.nodes
  index : ∀ b, (h.block? b).map Block.index = (g.block? b).map Block.index
  varArgs : h.varArgs = g.varArgs
  branches : h.branches = g.branches
  switches : h.switches = g.switches
  node : ∀ b n node, g.Runs b n → g.node? n = some node →
    ∃ image, h.node? n = some image ∧ SameNode node image
  phi : ∀ b p, h.HasPhi b p → g.HasPhi b p ∨ g.nodes.size ≤ p ∧ p < h.nodes.size

namespace Rewired

theorem runs_iff (hr : Rewired g h) : h.Runs b n ↔ g.Runs b n := by
  have hmap : ∀ k : Graph, k.Runs b n ↔ ∃ nodes, (k.block? b).map Block.nodes = some nodes ∧
      n ∈ nodes := by
    intro k
    simp only [Runs, Option.map_eq_some_iff]
    constructor
    · rintro ⟨block, hb, hn⟩
      exact ⟨block.nodes, ⟨block, hb, rfl⟩, hn⟩
    · rintro ⟨_, ⟨block, hb, rfl⟩, hn⟩
      exact ⟨block, hb, hn⟩
  rw [hmap, hmap, hr.nodes]

theorem refl (g : Graph) : Rewired g g :=
  ⟨le_rfl, fun _ => rfl, fun _ => rfl, rfl, rfl, rfl,
    fun _ _ node _ hnode => ⟨node, hnode, .refl node⟩, fun _ _ => .inl⟩

theorem trans (h₁ : Rewired g h) (h₂ : Rewired h k) : Rewired g k where
  size := h₁.size.trans h₂.size
  nodes := fun b => (h₂.nodes b).trans (h₁.nodes b)
  index := fun b => (h₂.index b).trans (h₁.index b)
  varArgs := h₂.varArgs.trans h₁.varArgs
  branches := h₂.branches.trans h₁.branches
  switches := h₂.switches.trans h₁.switches
  node := by
    intro b n node hn hnode
    obtain ⟨image, himage, hs⟩ := h₁.node b n node hn hnode
    obtain ⟨image', himage', hs'⟩ := h₂.node b n image (h₁.runs_iff.2 hn) himage
    exact ⟨image', himage', hs.trans hs'⟩
  phi := by
    intro b p hp
    rcases h₂.phi b p hp with hp | ⟨hnew, hlt⟩
    · exact (h₁.phi b p hp).imp_right fun ⟨hnew, hlt⟩ => ⟨hnew, hlt.trans_le h₂.size⟩
    · exact .inr ⟨h₁.size.trans hnew, hlt⟩

/-- A rewired graph is arranged like the old one. -/
theorem arranged (hr : Rewired g h) (hg : g.Arranged) : h.Arranged where
  phi_lt := by
    intro b p hp
    rcases hr.phi b p hp with hp | ⟨_, hlt⟩
    · exact (hg.phi_lt b p hp).trans_le hr.size
    · exact hlt
  run_lt := fun b n hn => (hg.run_lt b n (hr.runs_iff.1 hn)).trans_le hr.size
  apart := by
    intro b c n hp hn
    have hn := hr.runs_iff.1 hn
    rcases hr.phi b n hp with hp | ⟨hnew, _⟩
    · exact hg.apart b c n hp hn
    · exact absurd (hg.run_lt c n hn) (Nat.not_lt_of_le hnew)

/-- Blocks stay in the slots of their indices. -/
theorem numbered (hr : Rewired g h) (hg : g.Numbered) : h.Numbered := by
  intro b block hb
  have hindex := hr.index b
  rw [hb, Option.map_some, eq_comm, Option.map_eq_some_iff] at hindex
  obtain ⟨old, hold, hindex⟩ := hindex
  exact hindex.symm.trans (hg b old hold)

/-- A change of nodes that no block runs. -/
theorem of_node (hblocks : h.blocks = g.blocks) (hsize : h.nodes.size = g.nodes.size)
    (hargs : h.varArgs = g.varArgs) (hbranches : h.branches = g.branches)
    (hswitches : h.switches = g.switches)
    (hnode : ∀ b n, g.Runs b n → h.node? n = g.node? n) : Rewired g h where
  size := hsize.ge
  nodes := fun b => by rw [block?, block?, hblocks]
  index := fun b => by rw [block?, block?, hblocks]
  varArgs := hargs
  branches := hbranches
  switches := hswitches
  node := fun b n node hn hold => ⟨node, (hnode b n hn).trans hold, .refl node⟩
  phi := by
    rintro b p ⟨block, hb, hp⟩
    exact .inl ⟨block, by rw [block?, ← hblocks]; exact hb, hp⟩

/-- Repeating a change that rewires every arranged graph. -/
theorem foldl {α : Type} {f : Graph → α → Graph}
    (hf : ∀ k a, k.Arranged → Rewired k (f k a)) (hg : g.Arranged) (as : List α) :
    Rewired g (as.foldl f g) := by
  induction as generalizing g with
  | nil => exact .refl g
  | cons a as ih => exact (hf g a hg).trans (ih ((hf g a hg).arranged hg))

/-- The last node of a block is the same one, with the same payload. -/
theorem terminalNode?_eq (hr : Rewired g h) (hg : g.Arranged) (b : BlockId) :
    (h.terminalNode? b).map (fun e => e.2.payload) =
      (g.terminalNode? b).map fun e => e.2.payload := by
  have hnodes := hr.nodes b
  cases hb : g.block? b with
  | none =>
    rw [hb, Option.map_none, Option.map_eq_none_iff] at hnodes
    simp [terminalNode?, hb, hnodes]
  | some block =>
    rw [hb, Option.map_some] at hnodes
    obtain ⟨copy, hcopy, hlist⟩ := Option.map_eq_some_iff.1 hnodes
    cases hlast : block.nodes.getLast? with
    | none => simp [terminalNode?, hb, hcopy, hlist, hlast]
    | some last =>
      have hruns : g.Runs b last := ⟨block, hb, List.mem_of_getLast? hlast⟩
      obtain ⟨node, hnode⟩ := hg.exists_node hruns
      obtain ⟨image, himage, hs⟩ := hr.node b last node hruns hnode
      simp only [terminalNode?, hb, hcopy, hlist, hlast, hnode, himage, hs.kind,
        Option.bind_eq_bind, Option.bind_some]
      split <;> simp [hs.payload]

theorem successor?_eq (hr : Rewired g h) (hg : g.Arranged) (b : BlockId) (slot : Nat) :
    h.successor? b slot = g.successor? b slot :=
  successor?_congr hr.branches hr.switches (hr.terminalNode?_eq hg b) slot

end Rewired

/-! ## The parts of threading -/

theorem rewired_form (g : Graph) (form : Form) : Rewired g { g with form := form } :=
  .of_node rfl rfl rfl rfl rfl fun _ _ _ => rfl

theorem rewired_withReach (g : Graph) (reachable : BlockId → Bool)
    (preds : BlockId → List BlockId) :
    Rewired g (g.withReach reachable preds) where
  size := le_rfl
  nodes := by
    intro b
    rw [block?_withReach, Option.map_map]
    rfl
  index := by
    intro b
    rw [block?_withReach, Option.map_map]
    rfl
  varArgs := rfl
  branches := rfl
  switches := rfl
  node := fun _ _ node _ hnode => ⟨node, hnode, .refl node⟩
  phi := by
    rintro b p ⟨block, hb, hp⟩
    rw [block?_withReach] at hb
    obtain ⟨old, hold, rfl⟩ := Option.map_eq_some_iff.1 hb
    exact .inl ⟨old, hold, hp⟩

theorem rewired_resetReachability (g : Graph) : Rewired g g.resetReachability := by
  obtain ⟨reachable, preds, heq⟩ := g.exists_withReach
  rw [heq]
  exact rewired_withReach g reachable preds

/-- **Threading a block** changes its reads and gives it phis that were not there. -/
theorem rewired_threadBlock (hg : g.NoneMissing) (b : BlockId) : Rewired g (g.threadBlock b) := by
  cases hb : g.block? b with
  | none =>
    rw [threadBlock, hb]
    exact .refl g
  | some block =>
    obtain ⟨new, ht⟩ := exists_blockThreaded hb fun n hn => hg.run_lt b n ⟨block, hb, hn⟩
    obtain ⟨nodes, hrest⟩ := ht.rest
    have hold : ∀ n < g.nodes.size, n < (g.threadBlock b).nodes.size := by
      intro n hn
      obtain ⟨node, hnode⟩ := exists_node? hn
      obtain ⟨image, himage, _⟩ := ht.node n node hnode
      exact lt_size_of_node? himage
    refine ⟨?_, fun c => ?_, fun c => ?_, by rw [hrest], by rw [hrest], by rw [hrest], ?_, ?_⟩
    · by_contra hlt
      exact absurd (hold _ (Nat.lt_of_not_le hlt)) (Nat.lt_irrefl _)
    · rw [ht.block?]
      split
      · rename_i heq
        rw [← heq, hb, Option.map_some, Option.map_some, ht.code.1]
      · rfl
    · rw [ht.block?]
      split
      · rename_i heq
        rw [← heq, hb, Option.map_some, Option.map_some, ht.index]
      · rfl
    · intro c n node _ hnode
      obtain ⟨image, himage, hsame, _⟩ := ht.node n node hnode
      exact ⟨image, himage, hsame⟩
    · rintro c p ⟨copy, hc, hp⟩
      rcases ht.block_cases hc with ⟨_, rfl⟩ | ⟨_, hc⟩
      · obtain ⟨hnew, phi, hphi, _⟩ := ht.phi p hp
        exact .inr ⟨hnew, lt_size_of_node? hphi⟩
      · exact .inl ⟨copy, hc, hp⟩

/-- Changing a node that no block runs. -/
theorem rewired_modifyNode (hn : ∀ b, ¬ g.Runs b n) (change : Node → Node) :
    Rewired g (g.modifyNode n change) := by
  refine .of_node rfl (Array.size_modify ..) rfl rfl rfl fun b m hm => ?_
  have hne : n ≠ m := by
    rintro rfl
    exact hn b hm
  rw [node?_modifyNode, if_neg hne]

theorem rewired_linkPhi (hp : ∀ b, ¬ g.Runs b p) (preds : List BlockId) :
    Rewired g (linkPhi preds g p) := by
  rw [linkPhi]
  split
  · exact .refl g
  · exact rewired_modifyNode hp _

/-- Repeating a change of single nodes over nodes that no block runs. -/
theorem rewired_foldl_nodes {f : Graph → NodeId → Graph}
    (hf : ∀ k p, (∀ b, ¬ k.Runs b p) → Rewired k (f k p)) {ps : List NodeId}
    (hps : ∀ p ∈ ps, ∀ b, ¬ g.Runs b p) : Rewired g (ps.foldl f g) := by
  induction ps generalizing g with
  | nil => exact .refl g
  | cons p ps ih =>
    have hfirst := hf g p (hps p List.mem_cons_self)
    refine hfirst.trans (ih fun q hq b hb => ?_)
    exact hps q (List.mem_cons_of_mem _ hq) b (hfirst.runs_iff.1 hb)

/-- **Linking the phis of a block**, which no block runs. -/
theorem rewired_linkPhis (hg : g.Arranged) (b : BlockId) : Rewired g (g.linkPhis b) := by
  rw [linkPhis]
  split
  · exact .refl g
  · rename_i block hb
    exact rewired_foldl_nodes (fun k p hp => rewired_linkPhi hp block.preds)
      fun p hp c => hg.apart b c p ⟨block, hb, hp⟩

/-! ## Both operations -/

/-- **Threading** rewires a graph. -/
theorem rewired_threadLocals (hg : g.Arranged) : Rewired g g.threadLocals := by
  have hreset := g.rewired_resetReachability
  have hthread :=
    Rewired.foldl (fun k b hk => rewired_threadBlock hk.noneMissing b) (hreset.arranged hg)
    g.resetReachability.reachableIds
  have hlink := Rewired.foldl (fun k b hk => rewired_linkPhis hk b)
    (hthread.arranged (hreset.arranged hg)) g.resetReachability.reachableIds
  exact ((hreset.trans hthread).trans hlink).trans (rewired_form _ .threaded)

/-- **Leaving threaded form** rewires a graph. -/
theorem rewired_dethread (hg : g.Arranged) : Rewired g g.dethread := by
  rw [dethread]
  split
  · exact .refl g
  · have hphis : ∀ p ∈ g.liveBlocks.flatMap fun e => e.2.phis, ∀ c, ¬ g.Runs c p := by
      intro p hp c
      obtain ⟨⟨b, block⟩, he, hp⟩ := List.mem_flatMap.1 hp
      exact hg.apart b c p ⟨block, mem_liveBlocks.1 he, hp⟩
    exact (rewired_foldl_nodes (fun k p hp => rewired_modifyNode hp _) hphis).trans
      (rewired_form _ .loadStore)

end Unroller.Graph
