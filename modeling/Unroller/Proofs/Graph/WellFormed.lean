import Mathlib.Tactic
import Unroller.Graph.Validity
import Unroller.Proofs.Digraph.Walk
import Unroller.Proofs.Graph.Reading

/-!
# Well-formed graphs

`WellFormed` says in plain words what the search for defects checks: nodes exist and are listed in
one place, and every block is in order by itself (`BlockOk`).

* `validate_eq_ok_iff`: a graph has no defect exactly when it is well-formed.
* `WellFormed.terminal`: a live block of a well-formed graph ends in a terminal.
-/

namespace Unroller.Graph

variable {g : Graph} {b c : BlockId} {n : NodeId} {block : Block} {node : Node}

/-- The range of variadic operands exists. -/
def InRange (g : Graph) : Children → Prop
  | .variadic first count => first + count ≤ g.varArgs.size
  | .fixed .. => True

theorem inRange_congr {h : Graph} (ha : h.varArgs = g.varArgs) (c : Children) :
    h.InRange c ↔ g.InRange c := by
  cases c <;> simp [InRange, ha]

/-- Which payloads are admitted only depends on how many records there are. -/
theorem admits_congr {h : Graph} (hb : h.branches.size = g.branches.size)
    (hs : h.switches.size = g.switches.size) (hc : h.callLayouts.size = g.callLayouts.size)
    (hl : h.loadLayouts.size = g.loadLayouts.size) (kind : Kind) (payload : Payload) :
    h.admits kind payload = g.admits kind payload := by
  unfold admits
  rw [hb, hs, hc, hl]

section

variable {kind : Kind} {payload : Payload}

theorem jump_of_admits (hk : kind = .jump) (h : g.admits kind payload = true) :
    ∃ target, payload = .jump target := by
  subst hk
  cases payload <;> simp [admits] at h
  exact ⟨_, rfl⟩

theorem branch_of_admits (hk : kind = .branch) (h : g.admits kind payload = true) :
    ∃ record < g.branches.size, payload = .branch record := by
  subst hk
  cases payload <;> simp [admits] at h
  exact ⟨_, h, rfl⟩

theorem switch_of_admits (hk : kind = .switch) (h : g.admits kind payload = true) :
    ∃ record < g.switches.size, payload = .switch record := by
  subst hk
  cases payload <;> simp [admits] at h
  exact ⟨_, h, rfl⟩

end

/-- A node that stands in a block after the nodes `before`. -/
structure NodeOk (g : Graph) (block : Block) (before after : List NodeId) (node : Node) :
    Prop where
  terminal : node.kind.isTerminal = after.isEmpty
  admits : g.admits node.kind node.payload = true
  inRange : g.InRange node.children
  visible : ∀ c ∈ g.operands node, c ∈ before ∨ c ∈ block.phis

/-- What a phi refers to is listed in some live block. -/
structure PhiOk (g : Graph) (node : Node) : Prop where
  inRange : g.InRange node.children
  listed : ∀ c ∈ g.operands node, ∃ d other, g.block? d = some other ∧ c ∈ other.phis ++ other.nodes

/-- A block that is in order by itself. -/
structure BlockOk (g : Graph) (b : BlockId) (block : Block) : Prop where
  phis : ∀ n ∈ block.phis, g.isPhi n = true
  nodes : ∀ n ∈ block.nodes, g.isPhi n = false
  ne_nil : block.nodes ≠ []
  node : ∀ before n after, block.nodes = before ++ n :: after → ∀ node, g.node? n = some node →
    g.NodeOk block before after node
  phi : ∀ n ∈ block.phis, ∀ node, g.node? n = some node → g.PhiOk node
  pad : block.flags.edgePad = true → block.nodes.length = 1
  successor : ∀ slot < g.successorCount b, ∃ t, g.successor? b slot = some t ∧ g.isLive t = true

/-- A graph without defects. -/
structure WellFormed (g : Graph) : Prop where
  entry_live : g.isLive entry = true
  numbered : g.Numbered
  exists_node : ∀ b block, g.block? b = some block → ∀ n ∈ block.phis ++ block.nodes,
    n < g.nodes.size
  nodup : ∀ b block, g.block? b = some block → (block.phis ++ block.nodes).Nodup
  apart : ∀ b block c other n, g.block? b = some block → g.block? c = some other →
    n ∈ block.phis ++ block.nodes → n ∈ other.phis ++ other.nodes → b = c
  block : ∀ b block, g.block? b = some block → g.BlockOk b block

/-! ## Placement -/

theorem listingDefects_eq_nil_iff {seen : Array Bool} {nodes : List NodeId} :
    listingDefects b seen nodes = [] ↔ (∀ n ∈ nodes, seen[n]? = some false) ∧ nodes.Nodup := by
  induction nodes generalizing seen with
  | nil => simp [listingDefects]
  | cons n nodes ih =>
    rw [listingDefects]
    split
    case h_1 hn => simp [hn]
    case h_2 hn => simp [hn]
    case h_3 hn =>
      have hlt : n < seen.size := (Array.getElem?_eq_some_iff.1 hn).1
      have hmarked : ∀ m, (seen.setIfInBounds n true)[m]? = some false ↔
          m ≠ n ∧ seen[m]? = some false := by
        intro m
        rw [Array.getElem?_setIfInBounds]
        by_cases hmn : n = m
        · subst hmn
          simp [hlt]
        · simp [hmn, Ne.symm hmn]
      rw [ih]
      simp only [hmarked, List.mem_cons, forall_eq_or_imp, hn, true_and, List.nodup_cons]
      constructor
      · rintro ⟨hall, hnodup⟩
        exact ⟨fun m hm => (hall m hm).2, fun hmem => (hall n hmem).1 rfl, hnodup⟩
      · rintro ⟨hall, hnot, hnodup⟩
        exact ⟨fun m hm => ⟨fun heq => hnot (heq ▸ hm), hall m hm⟩, hnodup⟩

theorem foldl_mark_eq_some_false {seen : Array Bool} {nodes : List NodeId} {m : NodeId} :
    (nodes.foldl (fun seen n => seen.setIfInBounds n true) seen)[m]? = some false ↔
      m ∉ nodes ∧ seen[m]? = some false := by
  induction nodes generalizing seen with
  | nil => simp
  | cons n nodes ih =>
    rw [List.foldl_cons, ih, Array.getElem?_setIfInBounds, List.mem_cons, not_or]
    by_cases hmn : n = m
    · subst hmn
      simp
    · simp [hmn, Ne.symm hmn]

theorem placementDefects_eq_nil_iff {seen : Array Bool} {items : List (BlockId × Block)} :
    placementDefects seen items = [] ↔ (∀ e ∈ items, e.2.index = e.1) ∧
      (∀ n ∈ items.flatMap fun e => e.2.phis ++ e.2.nodes, seen[n]? = some false) ∧
      (items.flatMap fun e => e.2.phis ++ e.2.nodes).Nodup := by
  induction items generalizing seen with
  | nil => simp [placementDefects]
  | cons e items ih =>
    obtain ⟨b, block⟩ := e
    have hslot : (if block.index = b then [] else [Defect.wrongSlot block.index]) = [] ↔
        block.index = b := by
      split <;> simp_all
    simp only [placementDefects, List.append_eq_nil_iff, hslot, listingDefects_eq_nil_iff, ih,
      foldl_mark_eq_some_false, List.flatMap_cons, List.nodup_append', List.disjoint_left,
      @List.forall_mem_append _ _ (block.phis ++ block.nodes), List.forall_mem_cons]
    constructor
    · rintro ⟨⟨hindex, hfresh, hnodup⟩, hindices, hrest, hrestNodup⟩
      exact ⟨⟨hindex, hindices⟩, ⟨hfresh, fun n hn => (hrest n hn).2⟩, hnodup, hrestNodup,
        fun n hn hmem => (hrest n hmem).1 hn⟩
    · rintro ⟨⟨hindex, hindices⟩, ⟨hfresh, hrest⟩, hnodup, hrestNodup, hdisj⟩
      exact ⟨⟨hindex, hfresh, hnodup⟩, hindices,
        fun n hn => ⟨fun hmem => hdisj hmem hn, hrest n hn⟩, hrestNodup⟩

theorem mem_listed {e : BlockId × NodeId} :
    e ∈ g.listed ↔ ∃ block, g.block? e.1 = some block ∧ e.2 ∈ block.phis ++ block.nodes := by
  obtain ⟨b, n⟩ := e
  simp only [listed, List.mem_flatMap, List.mem_map, Prod.mk.injEq, Prod.exists, mem_liveBlocks]
  constructor
  · rintro ⟨c, block, hc, m, hm, rfl, rfl⟩
    exact ⟨block, hc, hm⟩
  · rintro ⟨block, hb, hn⟩
    exact ⟨b, block, hb, n, hn, rfl, rfl⟩

/-- The listed nodes are distinct when they are so in each block and no two blocks share one. -/
theorem nodup_listed_iff :
    (g.liveBlocks.flatMap fun e => e.2.phis ++ e.2.nodes).Nodup ↔
      (∀ b block, g.block? b = some block → (block.phis ++ block.nodes).Nodup) ∧
      ∀ b block c other n, g.block? b = some block → g.block? c = some other →
        n ∈ block.phis ++ block.nodes → n ∈ other.phis ++ other.nodes → b = c := by
  rw [List.nodup_flatMap]
  constructor
  · rintro ⟨hnodup, hpair⟩
    refine ⟨fun b block hb => hnodup (b, block) (mem_liveBlocks.2 hb), ?_⟩
    intro b block c other n hb hc hn hn'
    by_contra hne
    have : Std.Symm (Function.onFun List.Disjoint
        fun e : BlockId × Block => e.2.phis ++ e.2.nodes) := ⟨fun _ _ hd => hd.symm⟩
    have hdisj := hpair.forall (mem_liveBlocks.2 hb) (mem_liveBlocks.2 hc)
      fun heq => hne (congrArg Prod.fst heq)
    exact hdisj hn hn'
  · rintro ⟨hnodup, hapart⟩
    refine ⟨fun e he => hnodup e.1 e.2 (mem_liveBlocks.1 he), ?_⟩
    refine g.pairwise_liveBlocks.imp_of_mem ?_
    intro e f he hf hne n hn hn'
    exact hne (hapart e.1 e.2 f.1 f.2 n (mem_liveBlocks.1 he) (mem_liveBlocks.1 hf) hn hn')

theorem getD_placed (hn : n < g.nodes.size) :
    g.placed.getD n false = true ↔
      ∃ b block, g.block? b = some block ∧ n ∈ block.phis ++ block.nodes := by
  have hfold : ∀ (items : List (BlockId × NodeId)) (seen : Array Bool), n < seen.size →
      ((items.foldl (fun seen e => seen.setIfInBounds e.2 true) seen).getD n false = true ↔
        (∃ b, (b, n) ∈ items) ∨ seen.getD n false = true) := by
    intro items
    induction items with
    | nil => simp
    | cons e items ih =>
      intro seen hseen
      rw [List.foldl_cons, ih _ (by simpa using hseen), getD_setIfInBounds]
      by_cases he : e.2 = n
      · subst he
        simp only [hseen, and_self, if_true, or_true, List.mem_cons, true_iff]
        exact .inl ⟨e.1, .inl rfl⟩
      · simp only [he, false_and, if_false, List.mem_cons]
        constructor
        · rintro (⟨b, hb⟩ | h)
          · exact .inl ⟨b, .inr hb⟩
          · exact .inr h
        · rintro (⟨b, rfl | hb⟩ | h)
          · exact absurd rfl he
          · exact .inl ⟨b, hb⟩
          · exact .inr h
  rw [placed, hfold _ _ (by simpa using hn)]
  simp [mem_listed, Array.getD_eq_getD_getElem?, hn]

/-! ## Nodes -/

theorem operandDefects_eq_nil_iff {visible : NodeId → Bool} :
    g.operandDefects n node visible = [] ↔
      g.InRange node.children ∧ ∀ c ∈ g.operands node, c < g.nodes.size ∧ visible c = true := by
  rw [operandDefects, List.append_eq_nil_iff, List.filterMap_eq_nil_iff]
  refine and_congr ?_ (forall₂_congr fun c _ => ?_)
  · cases node.children <;> simp [InRange]
  · by_cases hc : g.nodes.size ≤ c
    · simp [hc, Nat.not_lt.2 hc]
    · cases visible c <;> simp [hc, Nat.lt_of_not_le hc]

theorem nodeDefects_eq_nil_iff (b : BlockId) {before : List NodeId} (after : List NodeId)
    (hnode : g.node? n = some node)
    (hlt : ∀ c ∈ before, c < g.nodes.size) (hphis : ∀ c ∈ block.phis, c < g.nodes.size) :
    g.nodeDefects b (before.reverse ++ block.phis) n after.isEmpty = [] ↔
      g.NodeOk block before after node := by
  simp only [nodeDefects, hnode, List.append_eq_nil_iff, operandDefects_eq_nil_iff]
  constructor
  · rintro ⟨⟨hterm, hadmits⟩, hrange, hvis⟩
    refine ⟨?_, ?_, hrange, ?_⟩
    · by_contra hne
      simp only [beq_iff_eq, hne, if_false] at hterm
      split at hterm <;> simp at hterm
    · by_contra hne
      simp [hne] at hadmits
    · intro c hc
      simpa using (hvis c hc).2
  · intro h
    refine ⟨⟨by simp [h.terminal], by simp [h.admits]⟩, h.inRange, ?_⟩
    intro c hc
    rcases h.visible c hc with hc | hc
    · exact ⟨hlt c hc, by simp [hc]⟩
    · exact ⟨hphis c hc, by simp [hc]⟩

theorem listDefects_eq_nil_iff (b : BlockId) (before nodes : List NodeId)
    (hlt : ∀ c ∈ block.phis ++ (before ++ nodes), c < g.nodes.size) :
    g.listDefects b (before.reverse ++ block.phis) nodes = [] ↔
      ∀ between n after, nodes = between ++ n :: after → ∀ node, g.node? n = some node →
        g.NodeOk block (before ++ between) after node := by
  induction nodes generalizing before with
  | nil => simp [listDefects]
  | cons n rest ih =>
    have hlt' : ∀ c ∈ block.phis ++ ((before ++ [n]) ++ rest), c < g.nodes.size := by
      simpa using hlt
    have hrest := ih (before ++ [n]) hlt'
    simp only [List.reverse_append, List.reverse_singleton, List.cons_append,
      List.nil_append] at hrest
    obtain ⟨node, hnode⟩ := exists_node? (hlt n (by simp))
    have hbefore : ∀ c ∈ before, c < g.nodes.size := fun c hc => hlt c (by simp [hc])
    have hphis : ∀ c ∈ block.phis, c < g.nodes.size := fun c hc => hlt c (by simp [hc])
    have hfirst := nodeDefects_eq_nil_iff b rest hnode hbefore hphis
    rw [listDefects, List.append_eq_nil_iff, hfirst, hrest]
    constructor
    · rintro ⟨hn, hall⟩ between m after heq node' hnode'
      cases between with
      | nil =>
        simp only [List.nil_append, List.cons.injEq] at heq
        obtain ⟨rfl, rfl⟩ := heq
        rw [hnode] at hnode'
        obtain rfl := Option.some.inj hnode'
        simpa using hn
      | cons x between =>
        simp only [List.cons_append, List.cons.injEq] at heq
        obtain ⟨rfl, rfl⟩ := heq
        simpa using hall between m after rfl node' hnode'
    · intro hall
      refine ⟨by simpa using hall [] n rest rfl node hnode, ?_⟩
      rintro between m after rfl node' hnode'
      simpa using hall (n :: between) m after rfl node' hnode'

/-! ## Blocks and graphs -/

theorem phiDefects_eq_nil_iff :
    g.phiDefects b block = [] ↔
      (∀ n ∈ block.phis, g.isPhi n = true) ∧ ∀ n ∈ block.nodes, g.isPhi n = false := by
  simp [phiDefects, List.filter_eq_nil_iff]

theorem successorDefects_eq_nil_iff :
    g.successorDefects b = [] ↔
      ∀ slot < g.successorCount b, ∃ t, g.successor? b slot = some t ∧ g.isLive t = true := by
  simp only [successorDefects, List.filterMap_eq_nil_iff, List.mem_range]
  refine forall₂_congr fun slot _ => ?_
  cases g.successor? b slot with
  | none => simp
  | some t => cases h : g.isLive t <;> simp [h]

theorem phiOperandDefects_eq_nil_iff
    (hlt : ∀ b block, g.block? b = some block → ∀ n ∈ block.phis ++ block.nodes, n < g.nodes.size)
    (hb : g.block? b = some block) :
    (block.phis.flatMap fun n =>
      match g.node? n with
      | some node => g.operandDefects n node fun c => g.placed.getD c false
      | none => []) = [] ↔ ∀ n ∈ block.phis, ∀ node, g.node? n = some node → g.PhiOk node := by
  rw [List.flatMap_eq_nil_iff]
  refine forall₂_congr fun n hn => ?_
  obtain ⟨node, hnode⟩ := exists_node? (hlt b block hb n (List.mem_append_left _ hn))
  simp only [hnode, operandDefects_eq_nil_iff, Option.some.injEq, forall_eq']
  constructor
  · rintro ⟨hrange, hall⟩
    exact ⟨hrange, fun c hc => (getD_placed (hall c hc).1).1 (hall c hc).2⟩
  · intro h
    refine ⟨h.inRange, fun c hc => ?_⟩
    obtain ⟨d, other, hd, hmem⟩ := h.listed c hc
    have hc : c < g.nodes.size := hlt d other hd c hmem
    exact ⟨hc, (getD_placed hc).2 ⟨d, other, hd, hmem⟩⟩

theorem blockDefects_eq_nil_iff
    (hlt : ∀ b block, g.block? b = some block → ∀ n ∈ block.phis ++ block.nodes, n < g.nodes.size)
    (hb : g.block? b = some block) :
    g.phiDefects b block = [] ∧ g.blockDefects g.placed b block = [] ↔ g.BlockOk b block := by
  have hlist := listDefects_eq_nil_iff b [] block.nodes (by simpa using hlt b block hb)
  have hphi := phiOperandDefects_eq_nil_iff hlt hb
  rw [phiDefects_eq_nil_iff, blockDefects]
  split
  case isTrue hempty =>
    simp only [reduceCtorEq, and_false, false_iff]
    intro h
    exact h.ne_nil (by simpa using hempty)
  case isFalse hne =>
    simp only [List.append_eq_nil_iff, successorDefects_eq_nil_iff]
    simp only [List.reverse_nil, List.nil_append] at hlist
    rw [hlist]
    constructor
    · rintro ⟨⟨hphis, hnodes⟩, ⟨⟨hnode, hnone⟩, hpad⟩, hsucc⟩
      refine ⟨hphis, hnodes, by simpa using hne, hnode, hphi.1 hnone, ?_, hsucc⟩
      intro hflag
      by_contra hlen
      simp [hflag, hlen] at hpad
    · intro h
      refine ⟨⟨h.phis, h.nodes⟩, ⟨⟨h.node, hphi.2 h.phi⟩, ?_⟩, h.successor⟩
      by_cases hflag : block.flags.edgePad = true
      · simp [h.pad hflag]
      · simp [hflag]

/-- **The search for defects is exact.**  It finds none exactly in well-formed graphs. -/
theorem defects_eq_nil_iff : g.defects = [] ↔ g.WellFormed := by
  have hplaced : placementDefects (Array.replicate g.nodes.size false) g.liveBlocks = [] ↔
      g.Numbered ∧
      (∀ b block, g.block? b = some block → ∀ n ∈ block.phis ++ block.nodes, n < g.nodes.size) ∧
        (g.liveBlocks.flatMap fun e => e.2.phis ++ e.2.nodes).Nodup := by
    rw [placementDefects_eq_nil_iff]
    simp only [List.mem_flatMap, Prod.exists, Prod.forall, mem_liveBlocks, Array.getElem?_replicate,
      Option.ite_none_right_eq_some, and_true, forall_exists_index, and_imp, Numbered]
    refine and_congr_right fun _ => and_congr_left fun _ => ?_
    constructor
    · intro h b block hb n hn
      exact h n b block hb hn
    · intro h n b block hb hn
      exact h b block hb n hn
  simp only [defects, List.append_eq_nil_iff, hplaced, nodup_listed_iff, List.flatMap_eq_nil_iff,
    Prod.forall, mem_liveBlocks]
  constructor
  · rintro ⟨⟨⟨hentry, hnumbered, hlt, hnodup, hapart⟩, hphi⟩, hblock⟩
    refine ⟨by simpa using hentry, hnumbered, hlt, hnodup, hapart, ?_⟩
    intro b block hb
    exact (blockDefects_eq_nil_iff hlt hb).1 ⟨hphi b block hb, hblock b block hb⟩
  · intro h
    have hok := fun b block hb => (blockDefects_eq_nil_iff h.exists_node hb).2 (h.block b block hb)
    exact ⟨⟨⟨by simp [h.entry_live], h.numbered, h.exists_node, h.nodup, h.apart⟩,
      fun b block hb => (hok b block hb).1⟩, fun b block hb => (hok b block hb).2⟩

theorem validate_eq_ok_iff : g.validate = .ok () ↔ g.WellFormed := by
  rw [← defects_eq_nil_iff, validate]
  cases g.defects <;> simp

/-! ## Terminals and successors -/

theorem slot_lt_of_slotTarget? {p : Payload} {slot : Nat} {t : BlockId}
    (h : g.slotTarget? p slot = some t) : slot < g.slotCount p := by
  cases p with
  | jump target =>
    by_contra hslot
    have hne : slot ≠ 0 := by simpa [slotCount] using hslot
    simp [slotTarget?, hne] at h
  | branch record =>
    simp only [slotTarget?, Option.bind_eq_bind, Option.bind_eq_some_iff,
      Option.map_eq_some_iff] at h
    obtain ⟨r, _, e, he, _⟩ := h
    rcases slot with _ | _ | k
    · simp [slotCount]
    · simp [slotCount]
    · simp [BranchRecord.target?] at he
  | switch record =>
    simp only [slotTarget?, Option.bind_eq_bind, Option.bind_eq_some_iff,
      Option.map_eq_some_iff] at h
    obtain ⟨r, hr, e, he, _⟩ := h
    rw [SwitchRecord.target?] at he
    simp only [slotCount, hr]
    split at he
    case h_1 hc => exact Nat.lt_succ_of_lt (List.getElem?_eq_some_iff.1 hc).1
    case h_2 => simp at he; omega
  | _ => simp [slotTarget?] at h

theorem slot_lt_of_successor? {slot : Nat} {t : BlockId} (h : g.successor? b slot = some t) :
    slot < g.successorCount b := by
  rw [successor?] at h
  rw [successorCount]
  cases ht : g.terminalNode? b with
  | none => simp [ht] at h
  | some e =>
    simp only [ht] at h
    exact slot_lt_of_slotTarget? h

theorem mem_successors_of_successor? {slot : Nat} {t : BlockId}
    (h : g.successor? b slot = some t) : t ∈ g.successors b :=
  mem_successors_iff.2 ⟨slot, slot_lt_of_successor? h, h⟩

namespace WellFormed

/-- A live block is a body without terminals and a terminal. -/
theorem terminal (h : g.WellFormed) (hb : g.block? b = some block) :
    ∃ body last node, block.nodes = body ++ [last] ∧ g.node? last = some node ∧
      g.NodeOk block body [] node ∧ g.terminalNode? b = some (last, node) := by
  have hok := h.block b block hb
  obtain ⟨body, last, hsplit⟩ : ∃ body last, block.nodes = body ++ [last] :=
    ⟨_, _, (List.dropLast_append_getLast hok.ne_nil).symm⟩
  obtain ⟨node, hnode⟩ := exists_node? (h.exists_node b block hb last (by simp [hsplit]))
  have hnodeOk := hok.node body last [] hsplit node hnode
  refine ⟨body, last, node, hsplit, hnode, hnodeOk, terminalNode?_eq_some_iff.2 ?_⟩
  exact ⟨block, hb, by simp [hsplit], hnode, by simpa using hnodeOk.terminal⟩

theorem isLive_successor (h : g.WellFormed) {slot : Nat} {t : BlockId}
    (ht : g.successor? b slot = some t) : g.isLive t = true := by
  have hlive := isLive_of_mem_successors (mem_successors_of_successor? ht)
  obtain ⟨block, hb⟩ := isLive_iff.1 hlive
  obtain ⟨t', ht', hlive'⟩ := (h.block b block hb).successor slot (slot_lt_of_successor? ht)
  rw [ht] at ht'
  obtain rfl := Option.some.inj ht'
  exact hlive'

theorem edge_iff (h : g.WellFormed) : g.flow.Edge b c ↔ c ∈ g.successors b := by
  refine ⟨fun he => he.2.2, fun hc => ?_⟩
  obtain ⟨slot, _, hslot⟩ := mem_successors_iff.1 hc
  obtain ⟨block, hb⟩ := isLive_iff.1 (isLive_of_mem_successors hc)
  obtain ⟨other, hother⟩ := isLive_iff.1 (h.isLive_successor hslot)
  exact ⟨lt_size_of_block? hb, lt_size_of_block? hother, hc⟩

theorem reaches_entry (h : g.WellFormed) : g.flow.Reaches entry entry := by
  obtain ⟨block, hb⟩ := isLive_iff.1 h.entry_live
  exact .refl (lt_size_of_block? hb)

/-- What is reachable is live. -/
theorem isLive_of_reaches (h : g.WellFormed) (hb : g.flow.Reaches entry b) : g.isLive b = true := by
  rcases hb.eq_or_last with rfl | ⟨c, _, hedge⟩
  · exact h.entry_live
  · obtain ⟨slot, _, hslot⟩ := mem_successors_iff.1 hedge.2.2
    exact h.isLive_successor hslot

end WellFormed

end Unroller.Graph
