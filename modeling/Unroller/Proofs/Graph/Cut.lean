import Mathlib.Tactic
import Unroller.Proofs.Execution.Body
import Unroller.Proofs.Graph.Growth
import Unroller.Proofs.Graph.Redirect

/-!
# Ending a block in a jump

The last node of a block is replaced by a jump, and a phantom before the jump keeps what the old
last node tested.

* `Cut`: what the graph is like afterwards, and `convertToJump_ok`: that it is.
* `convertToJump_cases`: all that ending a block in a jump can do.
* `Cut.sound`: the graph is sound if it was, and the target is live.
* `Cut.sameCode`, `Cut.successor?_eq`: no other block has changed, and this one leads to the target.
-/

namespace Unroller.Graph

variable {g h : Graph} {b c d target : BlockId} {n jump : NodeId} {node last : Node} {block : Block}
  {kept : List NodeId}

/-- In a grown graph the nodes of a block that was there use no phis of it, reads of locals
apart. -/
theorem Grows.phi_use (hgrows : Grows g h) (hg : g.Sound) (hb : g.block? b = some block)
    (hn : n ∈ block.nodes) (hnode : h.node? n = some node) (hget : node.kind ≠ .getLocal) :
    ∀ c ∈ h.operands node, c ∉ block.phis := by
  intro c hmem
  have hw := hg.wellFormed
  rw [hgrows.node?_of_mem hw hb (List.mem_append_right _ hn)] at hnode
  obtain ⟨before, after, hsplit⟩ := List.append_of_mem hn
  have hok := (hw.block b block hb).node before n after hsplit node hnode
  rw [hgrows.operands_eq hok.inRange] at hmem
  exact hg.phi_use b block hb n hn node hnode hget c hmem

/-- The block `b`, which ended in `last`, has come to end in a jump, with `kept` before it. -/
structure Cut (g : Graph) (b : BlockId) (block : Block) (last : Node) (target : BlockId)
    (kept : List NodeId) (jump : NodeId) (h : Graph) : Prop where
  grows : Grows g h
  size_blocks : h.blocks.size = g.blocks.size
  block? : ∀ d, h.block? d = if b = d then
    some { block with nodes := block.nodes.dropLast ++ (kept ++ [jump]) } else g.block? d
  jump_eq : jump = g.nodes.size
  jump_node : ∃ node, h.node? jump = some node ∧ node.kind = .jump ∧
    node.payload = .jump target ∧ node.children = .none
  nodup : kept.Nodup
  kept_eq : ∀ m ∈ kept, m = g.nodes.size + 1
  kept_node : ∀ m ∈ kept, ∃ node, h.node? m = some node ∧ node.kind = .phantom ∧
    node.payload = .bare ∧ h.InRange node.children ∧ ∀ c ∈ h.operands node, c ∈ g.operands last

/-- A jump. -/
def jumpNode (target : BlockId) (origin : Nat) : Node :=
  { kind := .jump, payload := .jump target, origin := origin }

/-- A phantom that keeps an operand. -/
def phantomNode (condition : Edge) (origin : Nat) : Node :=
  { kind := .phantom, children := .one condition, origin := origin }

theorem grows_addNode (g : Graph) (node : Node) : Grows g (g.addNode node).2 :=
  ⟨.push _ _, .refl _, .refl _, .refl _, .refl _, .refl _, rfl⟩

theorem node?_addNode_self (g : Graph) (node : Node) :
    (g.addNode node).2.node? g.nodes.size = some node := by
  simp

theorem block?_cut {k : Graph} (hblocks : k.blocks = g.blocks) (hb : g.block? b = some block)
    (nodes : List NodeId) (d : BlockId) :
    (k.modifyBlock b fun block => { block with nodes := block.nodes.dropLast ++ nodes }).block? d =
      if b = d then some { block with nodes := block.nodes.dropLast ++ nodes } else g.block? d := by
  have hblock : ∀ d, k.block? d = g.block? d := fun d => by rw [block?, block?, hblocks]
  rw [block?_modifyBlock, hblock]
  by_cases hd : b = d
  · subst hd
    simp [hb]
  · simp [hd]

/-- **Ending a block in a jump** succeeds. -/
theorem convertToJump_ok (hb : g.block? b = some block) (hterm : g.terminalNode? b = some (n, last))
    (hkind : last.kind ≠ .jump) (target : BlockId) :
    ∃ h kept jump, g.convertToJump b target = .ok h ∧ Cut g b block last target kept jump h := by
  rw [convertToJump, hterm]
  simp only [hkind, if_false, List.append_assoc]
  have hgrows := g.grows_addNode (jumpNode target last.origin)
  have hjump := g.node?_addNode_self (jumpNode target last.origin)
  by_cases hset : (last.child 0).isSet = true
  · simp only [hset, if_true]
    have hgrows' := Graph.grows_addNode (g.addNode (jumpNode target last.origin)).2
      (phantomNode (last.child 0) last.origin)
    have hsize : (g.addNode (jumpNode target last.origin)).2.nodes.size = g.nodes.size + 1 := by
      simp [addNode]
    have hphantom := Graph.node?_addNode_self (g.addNode (jumpNode target last.origin)).2
      (phantomNode (last.child 0) last.origin)
    refine ⟨_, [(g.addNode (jumpNode target last.origin)).2.nodes.size], g.nodes.size, rfl,
      (hgrows.trans hgrows').trans (.of_eq rfl rfl rfl rfl rfl rfl rfl), ?_,
      block?_cut rfl hb _, rfl, ⟨_, hgrows'.node?_of_some hjump, rfl, rfl, rfl⟩, by simp,
      by simp [hsize], ?_⟩
    · exact size_blocks_modifyBlock _ _ _
    · intro m hm
      obtain rfl := List.mem_singleton.1 hm
      refine ⟨_, hphantom, rfl, rfl, trivial, ?_⟩
      intro c hc
      refine Machine.mem_operands_of_child (i := 0) ?_
      simpa [operands, edgesOf, phantomNode, Children.one, Edge.empty] using hc
  · simp only [hset, Bool.false_eq_true, if_false]
    refine ⟨_, [], g.nodes.size, rfl, hgrows.trans (.of_eq rfl rfl rfl rfl rfl rfl rfl), ?_,
      block?_cut rfl hb _, rfl, ⟨_, hjump, rfl, rfl, rfl⟩, by simp, by simp, by simp⟩
    exact size_blocks_modifyBlock _ _ _

/-- What ending a block in a jump did: its jump got another target, or the block was cut. -/
theorem convertToJump_cases (hok : g.convertToJump b target = .ok h) :
    (∃ n last, g.terminalNode? b = some (n, last) ∧ last.kind = .jump ∧
      h = g.modifyNode n fun node => { node with payload := .jump target }) ∨
    ∃ n last block kept jump, g.terminalNode? b = some (n, last) ∧ last.kind ≠ .jump ∧
      g.block? b = some block ∧ Cut g b block last target kept jump h := by
  cases hterm : g.terminalNode? b with
  | none => simp [convertToJump, hterm] at hok
  | some e =>
    obtain ⟨n, last⟩ := e
    by_cases hkind : last.kind = .jump
    · simp only [convertToJump, hterm, hkind, if_true, Except.ok.injEq] at hok
      exact .inl ⟨n, last, rfl, hkind, hok.symm⟩
    · obtain ⟨block, hb, _⟩ := terminalNode?_eq_some_iff.1 hterm
      obtain ⟨h', kept, jump, hok', hcut⟩ := convertToJump_ok hb hterm hkind target
      rw [hok] at hok'
      obtain rfl := Except.ok.inj hok'
      exact .inr ⟨n, last, block, kept, jump, rfl, hkind, hb, hcut⟩

/-- Where a node of a cut block stands. -/
theorem cut_cases {body before after : List NodeId}
    (heq : body ++ (kept ++ [jump]) = before ++ n :: after) :
    (after ≠ [] ∧ ∃ rest, body = before ++ n :: rest ∧ after = rest ++ (kept ++ [jump])) ∨
      (after ≠ [] ∧ n ∈ kept ∧ ∀ c ∈ body, c ∈ before) ∨ (after = [] ∧ n = jump) := by
  have hnew : ∀ as, before = body ++ as → kept ++ [jump] = as ++ n :: after →
      (after ≠ [] ∧ n ∈ kept ∧ ∀ c ∈ body, c ∈ before) ∨ (after = [] ∧ n = jump) := by
    intro as hbefore hsplit
    rcases List.eq_nil_or_concat after with rfl | ⟨rest, z, rfl⟩
    · refine .inr ⟨rfl, ?_⟩
      simpa using (List.append_inj' hsplit rfl).2.symm
    · refine .inl ⟨by simp, ?_, fun c hmem => by simp [hbefore, hmem]⟩
      have hkept : kept = as ++ n :: rest := by
        have hsplit' : kept ++ [jump] = (as ++ n :: rest) ++ [z] := by simpa using hsplit
        exact (List.append_inj' hsplit' rfl).1
      simp [hkept]
  rcases List.append_eq_append_iff.1 heq with ⟨as, hbefore, hsplit⟩ | ⟨bs, hbody, hsplit⟩
  · exact .inr (hnew as hbefore hsplit)
  · cases bs with
    | nil => exact .inr (hnew [] (by simpa using hbody.symm) (by simpa using hsplit.symm))
    | cons z rest =>
      obtain ⟨rfl, hafter⟩ : n = z ∧ after = rest ++ (kept ++ [jump]) := by simpa using hsplit
      exact .inl ⟨by simp [hafter], rest, hbody, hafter⟩

namespace Cut

variable (hc : Cut g b block last target kept jump h)

include hc

theorem block?_self : h.block? b =
    some { block with nodes := block.nodes.dropLast ++ (kept ++ [jump]) } := by
  rw [hc.block?, if_pos rfl]

theorem block?_of_ne (hd : d ≠ b) : h.block? d = g.block? d := by
  rw [hc.block?, if_neg fun heq => hd heq.symm]

theorem isLive_of_isLive (hd : g.isLive d = true) : h.isLive d = true := by
  by_cases hdb : d = b
  · subst hdb
    exact isLive_of_block? hc.block?_self
  · rw [isLive, hc.block?_of_ne hdb]
    exact hd

theorem terminalNode?_self : ∃ node, h.terminalNode? b = some (jump, node) ∧
    node.payload = .jump target := by
  obtain ⟨node, hnode, hkind, hpayload, _⟩ := hc.jump_node
  refine ⟨node, terminalNode?_eq_some_iff.2 ⟨_, hc.block?_self, ?_, hnode, ?_⟩, hpayload⟩
  · simp [← List.append_assoc]
  · rw [hkind]
    rfl

theorem successor?_eq (slot : Nat) :
    h.successor? b slot = if slot = 0 then some target else none := by
  obtain ⟨node, hterm, hpayload⟩ := hc.terminalNode?_self
  rw [successor?_eq_slotTarget? hterm, hpayload]
  rfl

theorem successorCount_eq : h.successorCount b = 1 := by
  obtain ⟨node, hterm, hpayload⟩ := hc.terminalNode?_self
  rw [successorCount, hterm]
  simp only [hpayload]
  rfl

theorem sameCode (hw : g.WellFormed) (hd : g.isLive d = true) (hne : d ≠ b) : SameCode g h d := by
  obtain ⟨other, hother⟩ := isLive_iff.1 hd
  exact hc.grows.sameCode hw hother (by rw [hc.block?_of_ne hne, hother])

theorem terminalNode?_of_ne (hw : g.WellFormed) (hne : d ≠ b) :
    h.terminalNode? d = g.terminalNode? d := by
  cases hblock : g.block? d with
  | none => simp [terminalNode?, hc.block?_of_ne hne, hblock]
  | some other =>
    obtain ⟨body, last, node, hsplit, hlast, hok, hterm⟩ := hw.terminal hblock
    rw [hterm]
    exact terminalNode?_eq_some_iff.2 ⟨other, by rw [hc.block?_of_ne hne, hblock],
      by simp [hsplit], hc.grows.node?_of_some hlast, by simpa using hok.terminal⟩

/-- A block that ends in a jump shares its targets with none. -/
theorem owned (hw : g.WellFormed) {first : BlockId} (ho : Owned first g) : Owned first h := by
  have hself : ∀ d, ¬ SharesRecord h b d := by
    rintro d ⟨e, f, r, he, _, hshare⟩
    obtain ⟨node, hterm, hpayload⟩ := hc.terminalNode?_self
    rw [hterm] at he
    obtain rfl := Option.some.inj he
    simp [hpayload] at hshare
  intro c d hfirst hne hshare
  by_cases hcb : c = b
  · exact hself d (hcb ▸ hshare)
  · by_cases hdb : d = b
    · exact hself c (hdb ▸ hshare.symm)
    · obtain ⟨e, f, r, he, hf, heq⟩ := hshare
      rw [hc.terminalNode?_of_ne hw hcb] at he
      rw [hc.terminalNode?_of_ne hw hdb] at hf
      exact ho c d hfirst hne ⟨e, f, r, he, hf, heq⟩

/-! ## Soundness -/

theorem fresh (hm : n ∈ kept ++ [jump]) : g.nodes.size ≤ n := by
  rcases List.mem_append.1 hm with hm | hm
  · rw [hc.kept_eq n hm]
    exact Nat.le_succ _
  · rw [List.mem_singleton.1 hm, hc.jump_eq]

theorem lt_size (hm : n ∈ kept ++ [jump]) : n < h.nodes.size := by
  rcases List.mem_append.1 hm with hm | hm
  · obtain ⟨node, hnode, _⟩ := hc.kept_node n hm
    exact lt_size_of_node? hnode
  · obtain ⟨node, hnode, _⟩ := hc.jump_node
    rw [List.mem_singleton.1 hm]
    exact lt_size_of_node? hnode

theorem nodup_new : (kept ++ [jump]).Nodup := by
  refine List.nodup_append.2 ⟨hc.nodup, List.nodup_singleton _, ?_⟩
  intro m hm j hj heq
  rw [List.mem_singleton.1 hj, hc.jump_eq] at heq
  rw [hc.kept_eq m hm] at heq
  exact Nat.succ_ne_self _ heq

/-- What was listed before the last node of a block still is. -/
theorem mem_dropLast (hb : g.block? b = some block) {d : BlockId} {other : Block}
    (hd : g.block? d = some other) (hm : n ∈ other.phis ++ other.nodes.dropLast) :
    ∃ other', h.block? d = some other' ∧ n ∈ other'.phis ++ other'.nodes.dropLast := by
  by_cases hdb : d = b
  · subst hdb
    rw [hb] at hd
    obtain rfl := Option.some.inj hd
    refine ⟨_, hc.block?_self, ?_⟩
    rw [← List.append_assoc, List.dropLast_concat]
    rcases List.mem_append.1 hm with hm | hm
    · exact List.mem_append_left _ hm
    · exact List.mem_append_right _ (List.mem_append_left _ hm)
  · exact ⟨other, by rw [hc.block?_of_ne hdb, hd], hm⟩

/-- What phis refer to is still listed. -/
theorem listed (hg : g.Sound) (hb : g.block? b = some block) {d : BlockId} {other : Block}
    (hd : g.block? d = some other) (hm : n ∈ other.phis) (hnode : g.node? n = some node) :
    ∀ c ∈ g.operands node, ∃ d' other', h.block? d' = some other' ∧
      c ∈ other'.phis ++ other'.nodes.dropLast := by
  intro c hmem
  obtain ⟨d', other', hd', hmem'⟩ := hg.phi_operand d other hd n hm node hnode c hmem
  obtain ⟨other'', hd'', hmem''⟩ := hc.mem_dropLast hb hd' hmem'
  exact ⟨d', other'', hd'', hmem''⟩

omit hc in
theorem mem_of_mem_dropLast {phis nodes : List NodeId} (hm : n ∈ phis ++ nodes.dropLast) :
    n ∈ phis ++ nodes := by
  rcases List.mem_append.1 hm with hm | hm
  · exact List.mem_append_left _ hm
  · exact List.mem_append_right _ (List.mem_of_mem_dropLast hm)

omit hc in
/-- A pad ends in a jump. -/
theorem not_pad (hg : g.Sound) (hb : g.block? b = some block)
    (hterm : g.terminalNode? b = some (n, last)) (hkind : last.kind ≠ .jump) :
    ¬ block.flags.edgePad = true := by
  intro hpad
  obtain ⟨m, node, hnodes, hnode, hk⟩ := hg.pad b block hb hpad
  obtain ⟨block', hb', hlast, hn, _⟩ := terminalNode?_eq_some_iff.1 hterm
  rw [hb] at hb'
  obtain rfl := Option.some.inj hb'
  obtain rfl : m = n := by simpa [hnodes] using hlast
  rw [hn] at hnode
  obtain rfl := Option.some.inj hnode
  exact hkind hk

/-- The nodes of the block that was cut are in order. -/
theorem nodeOk (hg : g.WellFormed) (hb : g.block? b = some block)
    (hterm : g.terminalNode? b = some (n, last)) {before after : List NodeId} {m : NodeId}
    (hsplit : block.nodes.dropLast ++ (kept ++ [jump]) = before ++ m :: after)
    (hnode : h.node? m = some node) :
    h.NodeOk { block with nodes := block.nodes.dropLast ++ (kept ++ [jump]) }
      before after node := by
  have hok := hg.block b block hb
  obtain ⟨body, n', last', hbody, _, hlastOk, hterm'⟩ := hg.terminal hb
  rw [hterm] at hterm'
  obtain ⟨rfl, rfl⟩ : n = n' ∧ last = last' := by simpa using hterm'
  have hdrop : block.nodes.dropLast = body := by simp [hbody]
  rw [hdrop] at hsplit
  rcases cut_cases hsplit with ⟨hafter, rest, hbody', _⟩ | ⟨hafter, hm, hbefore⟩ | ⟨rfl, rfl⟩
  · rw [hc.grows.node?_of_mem hg hb (by simp [hbody, hbody'])] at hnode
    have hnodeOk := hok.node before m (rest ++ [n]) (by simp [hbody, hbody']) node hnode
    refine ⟨?_, hc.grows.admits hnodeOk.admits, hc.grows.inRange hnodeOk.inRange, ?_⟩
    · rw [hnodeOk.terminal]
      cases after <;> simp at hafter ⊢
    · rw [hc.grows.operands_eq hnodeOk.inRange]
      exact hnodeOk.visible
  · obtain ⟨node', hnode', hk, hpayload, hrange, hoperands⟩ := hc.kept_node m hm
    rw [hnode] at hnode'
    obtain rfl := Option.some.inj hnode'
    refine ⟨by simp [hk, Kind.isTerminal, hafter], by simp [hk, hpayload, admits, Kind.hasLocal],
      hrange, fun c hmem => ?_⟩
    exact (hlastOk.visible c (hoperands c hmem)).imp_left (hbefore c)
  · obtain ⟨node', hnode', hk, hpayload, hchildren⟩ := hc.jump_node
    rw [hnode] at hnode'
    obtain rfl := Option.some.inj hnode'
    refine ⟨by simp [hk, Kind.isTerminal], by simp [hk, hpayload, admits],
      by rw [hchildren]; trivial, fun c hmem => ?_⟩
    simp [operands, hchildren, edgesOf, Children.none, Edge.empty] at hmem

/-- The block that was cut is in order. -/
theorem blockOk (hg : g.Sound) (hb : g.block? b = some block)
    (hterm : g.terminalNode? b = some (n, last)) (hkind : last.kind ≠ .jump)
    (hlive : g.isLive target = true) :
    h.BlockOk b { block with nodes := block.nodes.dropLast ++ (kept ++ [jump]) } := by
  have hw := hg.wellFormed
  have hok := hw.block b block hb
  have hpad := not_pad hg hb hterm hkind
  refine
    { phis := ?phis
      nodes := ?nodes
      ne_nil := by simp
      node := fun before m after hsplit node hnode => hc.nodeOk hw hb hterm hsplit hnode
      phi := ?phi
      pad := fun h => absurd h hpad
      successor := ?successor }
  case phis =>
    intro m hm
    rw [isPhi, hc.grows.node?_of_mem hw hb (List.mem_append_left _ hm)]
    exact hok.phis m hm
  case nodes =>
    intro m hm
    rcases List.mem_append.1 hm with hm | hm
    · have hm := List.mem_of_mem_dropLast hm
      rw [isPhi, hc.grows.node?_of_mem hw hb (List.mem_append_right _ hm)]
      exact hok.nodes m hm
    rcases List.mem_append.1 hm with hm | hm
    · obtain ⟨node, hnode, hk, _⟩ := hc.kept_node m hm
      simp [isPhi, hnode, hk]
    · obtain ⟨node, hnode, hk, _⟩ := hc.jump_node
      rw [List.mem_singleton.1 hm]
      simp [isPhi, hnode, hk]
  case phi =>
    intro m hm node hnode
    rw [hc.grows.node?_of_mem hw hb (List.mem_append_left _ hm)] at hnode
    have hrange := (hok.phi m hm node hnode).inRange
    refine ⟨hc.grows.inRange hrange, ?_⟩
    rw [hc.grows.operands_eq hrange]
    intro c hmem
    obtain ⟨d, other, hd, hmem'⟩ := hc.listed hg hb hb hm hnode c hmem
    exact ⟨d, other, hd, mem_of_mem_dropLast hmem'⟩
  case successor =>
    intro slot hslot
    rw [hc.successorCount_eq] at hslot
    refine ⟨target, ?_, hc.isLive_of_isLive hlive⟩
    rw [hc.successor?_eq, if_pos (by omega)]

theorem wellFormed (hg : g.Sound) (hb : g.block? b = some block)
    (hterm : g.terminalNode? b = some (n, last)) (hkind : last.kind ≠ .jump)
    (hlive : g.isLive target = true) : h.WellFormed := by
  have hw := hg.wellFormed
  -- a node of the cut block is one it had, or a new one
  have hcut : ∀ m ∈ block.phis ++ (block.nodes.dropLast ++ (kept ++ [jump])),
      m ∈ block.phis ++ block.nodes ∨ m ∈ kept ++ [jump] := by
    intro m hm
    rw [← List.append_assoc] at hm
    exact (List.mem_append.1 hm).imp_left mem_of_mem_dropLast
  refine
    { entry_live := hc.isLive_of_isLive hw.entry_live
      numbered := ?numbered
      exists_node := ?exists_node
      nodup := ?nodup
      apart := ?apart
      block := ?block }
  case numbered =>
    intro d other hd
    rw [hc.block?] at hd
    split at hd
    · rename_i heq
      obtain rfl := Option.some.inj hd
      exact (hw.numbered b block hb).trans heq
    · exact hw.numbered d other hd
  case exists_node =>
    intro d other hd m hm
    rw [hc.block?] at hd
    split at hd
    · obtain rfl := Option.some.inj hd
      rcases hcut m hm with hm | hm
      · exact lt_of_lt_of_le (hw.exists_node b block hb m hm) hc.grows.nodes.size_le
      · exact hc.lt_size hm
    · exact lt_of_lt_of_le (hw.exists_node d other hd m hm) hc.grows.nodes.size_le
  case nodup =>
    intro d other hd
    rw [hc.block?] at hd
    split at hd
    · obtain rfl := Option.some.inj hd
      show (block.phis ++ (block.nodes.dropLast ++ (kept ++ [jump]))).Nodup
      rw [← List.append_assoc]
      refine List.nodup_append.2 ⟨?_, hc.nodup_new, ?_⟩
      · exact (hw.nodup b block hb).sublist ((List.dropLast_sublist _).append_left _)
      · rintro m hm m' hm' rfl
        exact Nat.not_lt.2 (hc.fresh hm')
          (hw.exists_node b block hb m (mem_of_mem_dropLast hm))
    · exact hw.nodup d other hd
  case apart =>
    intro d other d' other' m hd hd' hm hm'
    rw [hc.block?] at hd hd'
    split at hd <;> split at hd'
    · rename_i h₁ h₂
      exact h₁.symm.trans h₂
    · rename_i hbd _
      obtain rfl := Option.some.inj hd
      rcases hcut m hm with hm | hm
      · exact hbd.symm.trans (hw.apart b block d' other' m hb hd' hm hm')
      · exact absurd (hw.exists_node d' other' hd' m hm') (Nat.not_lt.2 (hc.fresh hm))
    · rename_i hbd
      obtain rfl := Option.some.inj hd'
      rcases hcut m hm' with hm' | hm'
      · exact (hw.apart d other b block m hd hb hm hm').trans hbd
      · exact absurd (hw.exists_node d other hd m hm) (Nat.not_lt.2 (hc.fresh hm'))
    · exact hw.apart d other d' other' m hd hd' hm hm'
  case block =>
    intro d other hd
    by_cases hdb : d = b
    · subst hdb
      rw [hc.block?_self] at hd
      obtain rfl := Option.some.inj hd
      exact hc.blockOk hg hb hterm hkind hlive
    · have hd' : g.block? d = some other := by rw [← hc.block?_of_ne hdb, hd]
      refine hc.grows.blockOk hw hd' hd (fun _ => hc.isLive_of_isLive) ?_
      intro m hm node hnode c hmem
      obtain ⟨e, other', he, hmem'⟩ := hc.listed hg hb hd' hm hnode c hmem
      exact ⟨e, other', he, mem_of_mem_dropLast hmem'⟩

/-- Every block has the phis it had. -/
theorem phis_before (hb : g.block? b = some block) {d : BlockId} {other : Block}
    (hd : h.block? d = some other) : ∃ old, g.block? d = some old ∧ other.phis = old.phis := by
  rw [hc.block?] at hd
  split at hd
  · rename_i hbd
    obtain rfl := Option.some.inj hd
    exact ⟨block, hbd ▸ hb, rfl⟩
  · exact ⟨other, hd, rfl⟩

/-- The nodes of the block that was cut use no phis, reads of locals apart. -/
theorem phi_use_cut (hg : g.Sound) (hb : g.block? b = some block)
    (hterm : g.terminalNode? b = some (n, last)) {m : NodeId}
    (hm : m ∈ block.nodes.dropLast ++ (kept ++ [jump])) (hnode : h.node? m = some node)
    (hget : node.kind ≠ .getLocal) : ∀ c ∈ h.operands node, c ∉ block.phis := by
  intro c hmem
  rcases List.mem_append.1 hm with hm | hm
  · exact hc.grows.phi_use hg hb (List.mem_of_mem_dropLast hm) hnode hget c hmem
  rcases List.mem_append.1 hm with hm | hm
  · obtain ⟨node', hnode', _, _, _, hoperands⟩ := hc.kept_node m hm
    rw [hnode] at hnode'
    obtain rfl := Option.some.inj hnode'
    obtain ⟨block', hb', hlast, hn, hlastTerm⟩ := terminalNode?_eq_some_iff.1 hterm
    rw [hb] at hb'
    obtain rfl := Option.some.inj hb'
    refine hg.phi_use b block hb n (List.mem_of_getLast? hlast) last hn ?_ c (hoperands c hmem)
    intro hk
    simp [hk, Kind.isTerminal] at hlastTerm
  · obtain ⟨node', hnode', _, _, hchildren⟩ := hc.jump_node
    rw [List.mem_singleton.1 hm, hnode'] at hnode
    obtain rfl := Option.some.inj hnode
    simp [operands, hchildren, edgesOf, Children.none, Edge.empty] at hmem

/-- **A graph with a block cut short** is sound if it was. -/
theorem sound (hg : g.Sound) (hb : g.block? b = some block)
    (hterm : g.terminalNode? b = some (n, last)) (hkind : last.kind ≠ .jump)
    (hlive : g.isLive target = true) : h.Sound := by
  have hw := hg.wellFormed
  refine
    { wellFormed := hc.wellFormed hg hb hterm hkind hlive
      pad := ?pad
      phi_use := ?phi_use
      snapshot := ?snapshot
      phi_operand := ?phi_operand }
  case pad =>
    intro d other hd hpad
    rw [hc.block?] at hd
    split at hd
    · obtain rfl := Option.some.inj hd
      have hnot := not_pad hg hb hterm hkind
      exact absurd hpad hnot
    · obtain ⟨m, node, heq, hnode, hk⟩ := hg.pad d other hd hpad
      exact ⟨m, node, heq, hc.grows.node?_of_some hnode, hk⟩
  case phi_use =>
    intro d other hd m hm node hnode hget
    rw [hc.block?] at hd
    split at hd
    · obtain rfl := Option.some.inj hd
      exact hc.phi_use_cut hg hb hterm hm hnode hget
    · exact hc.grows.phi_use hg hd hm hnode hget
  case snapshot =>
    intro d other hd m hm
    rw [hc.block?] at hd
    split at hd
    · obtain rfl := Option.some.inj hd
      have hmem := hg.snapshot b block hb m hm
      obtain ⟨other', hother', hmem'⟩ := hc.mem_dropLast hb hb hmem
      rw [hc.block?_self] at hother'
      obtain rfl := Option.some.inj hother'
      exact hmem'
    · exact hg.snapshot d other hd m hm
  case phi_operand =>
    intro d other hd m hm node hnode c hmem
    obtain ⟨old, hold, hphis⟩ := hc.phis_before hb hd
    rw [hphis] at hm
    rw [hc.grows.node?_of_mem hw hold (List.mem_append_left _ hm)] at hnode
    rw [hc.grows.operands_eq ((hw.block d old hold).phi m hm node hnode).inRange] at hmem
    exact hc.listed hg hb hold hm hnode c hmem

theorem unlinked (hw : g.WellFormed) (hb : g.block? b = some block) (hu : g.Unlinked) :
    h.Unlinked := by
  intro d other hd m hm node hnode
  obtain ⟨old, hold, hphis⟩ := hc.phis_before hb hd
  rw [hphis] at hm
  rw [hc.grows.node?_of_mem hw hold (List.mem_append_left _ hm)] at hnode
  rw [hc.grows.operands_eq ((hw.block d old hold).phi m hm node hnode).inRange]
  exact hu d old hold m hm node hnode

end Cut

end Unroller.Graph
