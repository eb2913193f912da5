import Mathlib.Tactic
import Unroller.Proofs.Graph.Cut
import Unroller.Proofs.Graph.NodeCopy

/-!
# What belongs to a block

The nodes that a block lists and the records that its nodes name belong to it.  In a graph that is
not well-formed, or no longer, blocks may still share nothing: then an edit of one block does not
reach the others.

* `Closed`: what blocks list and name exists.
* `SelfContained`: a block shares nothing with others.
* `Keeps`: a block is the same in another graph, with all that belongs to it.
* `EditsOnly`: nothing has changed but what belongs to one block; `editsOnly_setSuccessor` and
  `editsOnly_convertToJump`: the two edits of successors are of this sort.
* `EditOf`: at most one block has changed, and it shares nothing; `EditsOnly.editOf`: so it is in a
  closed graph.
-/

namespace Unroller.Graph

variable {g h k : Graph} {b c d t : BlockId} {n : NodeId} {node : Node} {block : Block}
  {p : Payload} {r : Record} {slot : Nat}

/-! ## Belongings -/

/-- A block lists a node. -/
def Lists (g : Graph) (b : BlockId) (n : NodeId) : Prop :=
  ∃ block, g.block? b = some block ∧ n ∈ block.phis ++ block.nodes

/-- A node of a block names a record. -/
def Names (g : Graph) (b : BlockId) (p : Payload) : Prop :=
  p.isRecord = true ∧ ∃ block, g.block? b = some block ∧
    ∃ n ∈ block.nodes, ∃ node, g.node? n = some node ∧ node.payload = p

/-- A position in the list of variadic operands lies in the range of a node of a block. -/
def Spans (g : Graph) (b : BlockId) (i : Nat) : Prop :=
  ∃ n, g.Lists b n ∧ ∃ node first count, g.node? n = some node ∧
    node.children = .variadic first count ∧ first ≤ i ∧ i < first + count

/-- What blocks list and name exists. -/
structure Closed (g : Graph) : Prop where
  node : ∀ b n, g.Lists b n → n < g.nodes.size
  record : ∀ b p, g.Names b p → ∃ r, g.record? p = some r

/-- No other block lists a node of this one or names one of its records. -/
structure SelfContained (g : Graph) (c : BlockId) : Prop where
  node : ∀ d n, g.Lists c n → g.Lists d n → d = c
  record : ∀ d p, g.Names c p → g.Names d p → d = c

theorem WellFormed.closed (hw : g.WellFormed) : g.Closed where
  node := by
    rintro b n ⟨block, hb, hn⟩
    exact hw.exists_node b block hb n hn
  record := by
    rintro b p ⟨hp, block, hb, n, hn, node, hnode, rfl⟩
    obtain ⟨before, after, hsplit⟩ := List.append_of_mem hn
    exact exists_record?_of_admits
      ((hw.block b block hb).node before n after hsplit node hnode).admits
      hp

theorem lists_of_terminalNode? (hterm : g.terminalNode? b = some (n, node)) : g.Lists b n := by
  obtain ⟨block, hb, hlast, _⟩ := terminalNode?_eq_some_iff.1 hterm
  exact ⟨block, hb, List.mem_append_right _ (List.mem_of_getLast? hlast)⟩

theorem names_of_terminalNode? (hterm : g.terminalNode? b = some (n, node))
    (hp : node.payload.isRecord = true) : g.Names b node.payload := by
  obtain ⟨block, hb, hlast, hnode, _⟩ := terminalNode?_eq_some_iff.1 hterm
  exact ⟨hp, block, hb, n, List.mem_of_getLast? hlast, node, hnode, rfl⟩

theorem SelfContained.ownTerminal (hs : g.SelfContained c) : g.OwnTerminal c := by
  rintro d n node m other hne hc hd rfl
  exact hne (hs.node d n (lists_of_terminalNode? hc) (lists_of_terminalNode? hd))

/-! ## Kept blocks -/

/-- A block is in `h` what it is in `g`, with its nodes, their operands and its records. -/
structure Keeps (g h : Graph) (b : BlockId) : Prop where
  block : h.block? b = g.block? b
  node : ∀ n, g.Lists b n → ∀ node, g.node? n = some node → h.node? n = some node
  edges : ∀ n, g.Lists b n → ∀ node, g.node? n = some node → g.InRange node.children →
    h.InRange node.children ∧ h.edgesOf node.children = g.edgesOf node.children
  record : ∀ p, g.Names b p → ∀ r, g.record? p = some r → h.record? p = some r

theorem Grows.keeps (hg : Grows g h) (hb : h.block? b = g.block? b) : Keeps g h b where
  block := hb
  node := fun _ _ _ => hg.node?_of_some
  edges := fun _ _ _ _ hc => ⟨hg.inRange hc, hg.edgesOf_eq hc⟩
  record := fun _ _ _ => hg.record?_of_some

namespace Keeps

theorem refl (g : Graph) (b : BlockId) : Keeps g g b :=
  ⟨rfl, fun _ _ _ h => h, fun _ _ _ _ h => ⟨h, rfl⟩, fun _ _ _ h => h⟩

variable (hk : Keeps g h b)

include hk

theorem lists_iff : h.Lists b n ↔ g.Lists b n := by
  rw [Lists, Lists, hk.block]

theorem names (hp : g.Names b p) : h.Names b p := by
  obtain ⟨hrecord, block, hb, n, hn, node, hnode, rfl⟩ := hp
  exact ⟨hrecord, block, by rw [hk.block, hb], n, hn, node,
    hk.node n ⟨block, hb, List.mem_append_right _ hn⟩ node hnode, rfl⟩

theorem trans (hk' : Keeps h k b) : Keeps g k b := by
  refine ⟨hk'.block.trans hk.block, ?_, ?_, ?_⟩
  · intro n hn node hnode
    exact hk'.node n (hk.lists_iff.2 hn) node (hk.node n hn node hnode)
  · intro n hn node hnode hc
    obtain ⟨hc₁, heq₁⟩ := hk.edges n hn node hnode hc
    obtain ⟨hc₂, heq₂⟩ := hk'.edges n (hk.lists_iff.2 hn) node (hk.node n hn node hnode) hc₁
    exact ⟨hc₂, heq₂.trans heq₁⟩
  · intro p hp r hr
    exact hk'.record p (hk.names hp) r (hk.record p hp r hr)

variable (hc : g.Closed)

include hc

theorem names_iff : h.Names b p ↔ g.Names b p := by
  refine ⟨?_, hk.names⟩
  rintro ⟨hrecord, block, hb, n, hn, node, hnode, rfl⟩
  rw [hk.block] at hb
  have hlists : g.Lists b n := ⟨block, hb, List.mem_append_right _ hn⟩
  obtain ⟨old, hold⟩ := exists_node? (hc.node b n hlists)
  rw [hk.node n hlists old hold] at hnode
  obtain rfl := Option.some.inj hnode
  exact ⟨hrecord, block, hb, n, hn, old, hold, rfl⟩

theorem spans {i : Nat} (hi : h.Spans b i) : g.Spans b i := by
  obtain ⟨n, hn, node, first, count, hnode, hrange⟩ := hi
  have hlists := hk.lists_iff.1 hn
  obtain ⟨old, hold⟩ := exists_node? (hc.node b n hlists)
  rw [hk.node n hlists old hold] at hnode
  obtain rfl := Option.some.inj hnode
  exact ⟨n, hlists, old, first, count, hold, hrange⟩

theorem terminalNode?_eq : h.terminalNode? b = g.terminalNode? b := by
  cases hb : g.block? b with
  | none => simp [terminalNode?, hk.block, hb]
  | some block =>
    cases hlast : block.nodes.getLast? with
    | none => simp [terminalNode?, hk.block, hb, hlast]
    | some n =>
      have hlists : g.Lists b n :=
        ⟨block, hb, List.mem_append_right _ (List.mem_of_getLast? hlast)⟩
      obtain ⟨node, hnode⟩ := exists_node? (hc.node b n hlists)
      simp [terminalNode?, hk.block, hb, hlast, hnode, hk.node n hlists node hnode]

theorem successor?_eq (slot : Nat) : h.successor? b slot = g.successor? b slot := by
  rw [successor?, successor?, hk.terminalNode?_eq hc]
  cases hterm : g.terminalNode? b with
  | none => rfl
  | some e =>
    by_cases hp : e.2.payload.isRecord = true
    · have hnames := names_of_terminalNode? hterm hp
      obtain ⟨r, hr⟩ := hc.record b _ hnames
      exact (slotTarget?_of_record? (hk.record _ hnames r hr) slot).trans
        (slotTarget?_of_record? hr slot).symm
    · exact slotTarget?_of_not_isRecord (by simpa using hp) slot

theorem successorCount_eq : h.successorCount b = g.successorCount b := by
  rw [successorCount, successorCount, hk.terminalNode?_eq hc]
  cases hterm : g.terminalNode? b with
  | none => rfl
  | some e =>
    by_cases hp : e.2.payload.isRecord = true
    · have hnames := names_of_terminalNode? hterm hp
      obtain ⟨r, hr⟩ := hc.record b _ hnames
      exact (slotCount_of_record? (hk.record _ hnames r hr)).trans (slotCount_of_record? hr).symm
    · exact slotCount_of_not_isRecord (by simpa using hp)

end Keeps

/-! ## Edits of one block among blocks that share nothing -/

/-- At most the block `c` has changed, and it shares nothing with the others. -/
structure EditOf (g : Graph) (c : BlockId) (h : Graph) : Prop where
  roomier : Roomier g h
  size_le : g.blocks.size ≤ h.blocks.size
  closed : h.Closed
  selfContained : h.SelfContained c
  kept : ∀ d, d ≠ c → Keeps g h d

namespace EditOf

theorem refl (hc : g.Closed) (hs : g.SelfContained c) : EditOf g c g :=
  ⟨.refl g, le_rfl, hc, hs, fun d _ => .refl g d⟩

theorem trans (h₁ : EditOf g c h) (h₂ : EditOf h c k) : EditOf g c k :=
  ⟨h₁.roomier.trans h₂.roomier, h₁.size_le.trans h₂.size_le, h₂.closed, h₂.selfContained,
    fun d hd => (h₁.kept d hd).trans (h₂.kept d hd)⟩

/-- Another block that shared nothing shares nothing still. -/
theorem selfContained_of_ne (he : EditOf g c h) (hc : g.Closed) (hne : d ≠ c)
    (hd : g.SelfContained d) : h.SelfContained d := by
  have hkept := he.kept d hne
  refine ⟨?_, ?_⟩
  · intro e n hdn hen
    by_cases hec : e = c
    · subst hec
      exact absurd (he.selfContained.node d n hen hdn) hne
    · exact hd.node e n (hkept.lists_iff.1 hdn) ((he.kept e hec).lists_iff.1 hen)
  · intro e p hdp hep
    by_cases hec : e = c
    · subst hec
      exact absurd (he.selfContained.record d p hep hdp) hne
    · exact hd.record e p ((hkept.names_iff hc).1 hdp) (((he.kept e hec).names_iff hc).1 hep)

end EditOf

/-! ## What an edit touches -/

/-- The graphs are of one function, in one form, with the same kept analyses. -/
structure SameFunction (g h : Graph) : Prop where
  name : h.name = g.name
  function : h.function = g.function
  locals : h.locals = g.locals
  form : h.form = g.form
  dominatorCache : h.dominatorCache = g.dominatorCache
  loopCache : h.loopCache = g.loopCache

namespace SameFunction

theorem refl (g : Graph) : SameFunction g g := ⟨rfl, rfl, rfl, rfl, rfl, rfl⟩

theorem trans (h₁ : SameFunction g h) (h₂ : SameFunction h k) : SameFunction g k :=
  ⟨h₂.name.trans h₁.name, h₂.function.trans h₁.function, h₂.locals.trans h₁.locals,
    h₂.form.trans h₁.form, h₂.dominatorCache.trans h₁.dominatorCache,
    h₂.loopCache.trans h₁.loopCache⟩

end SameFunction

/-- Nothing has changed but what belongs to the block `c`, and the block lists nothing but what it
listed and what was added. -/
structure Touches (g : Graph) (c : BlockId) (h : Graph) : Prop where
  same : SameFunction g h
  roomier : Roomier g h
  size_blocks : h.blocks.size = g.blocks.size
  size_args : g.varArgs.size ≤ h.varArgs.size
  block : ∀ d, d ≠ c → h.block? d = g.block? d
  node : ∀ n < g.nodes.size, ¬ g.Lists c n → h.node? n = g.node? n
  arg : ∀ i < g.varArgs.size, ¬ g.Spans c i → h.varArgs[i]? = g.varArgs[i]?
  record : ∀ p, ¬ g.Names c p → ∀ r, g.record? p = some r → h.record? p = some r
  lists : ∀ n, h.Lists c n → g.Lists c n ∨ g.nodes.size ≤ n ∧ n < h.nodes.size

/-- Nothing has changed but what belongs to the block `c`, and nothing has come to belong to it but
what was added. -/
structure EditsOnly (g : Graph) (c : BlockId) (h : Graph) : Prop extends Touches g c h where
  names : ∀ p, h.Names c p → g.Names c p ∨ g.record? p = none ∧ ∃ r, h.record? p = some r
  spans : ∀ i, h.Spans c i → g.Spans c i ∨ g.varArgs.size ≤ i

namespace EditsOnly

theorem refl (g : Graph) (c : BlockId) : EditsOnly g c g :=
  ⟨⟨.refl g, .refl g, rfl, le_rfl, fun _ _ => rfl, fun _ _ _ => rfl, fun _ _ _ => rfl,
    fun _ _ _ h => h, fun _ => .inl⟩, fun _ => .inl, fun _ => .inl⟩

theorem trans (h₁ : EditsOnly g c h) (h₂ : EditsOnly h c k) : EditsOnly g c k where
  same := h₁.same.trans h₂.same
  roomier := h₁.roomier.trans h₂.roomier
  size_blocks := h₂.size_blocks.trans h₁.size_blocks
  size_args := h₁.size_args.trans h₂.size_args
  block := fun d hd => (h₂.block d hd).trans (h₁.block d hd)
  node := by
    intro n hn hnot
    rw [h₂.node n (hn.trans_le h₁.roomier.nodes) fun hlists => ?_, h₁.node n hn hnot]
    rcases h₁.lists n hlists with hold | hnew
    · exact hnot hold
    · exact Nat.not_lt.2 hnew.1 hn
  arg := by
    intro i hi hnot
    rw [h₂.arg i (hi.trans_le h₁.size_args) fun hspans => ?_, h₁.arg i hi hnot]
    rcases h₁.spans i hspans with hold | hnew
    · exact hnot hold
    · exact Nat.not_lt.2 hnew hi
  record := by
    intro p hnot r hr
    refine h₂.record p (fun hnames => ?_) r (h₁.record p hnot r hr)
    rcases h₁.names p hnames with hold | ⟨hnone, _⟩
    · exact hnot hold
    · rw [hr] at hnone
      cases hnone
  lists := by
    intro n hn
    rcases h₂.lists n hn with hn | ⟨hle, hlt⟩
    · exact (h₁.lists n hn).imp_right fun hnew => ⟨hnew.1, hnew.2.trans_le h₂.roomier.nodes⟩
    · exact .inr ⟨h₁.roomier.nodes.trans hle, hlt⟩
  names := by
    intro p hp
    rcases h₂.names p hp with hp | ⟨hnone, hr⟩
    · refine (h₁.names p hp).imp_right fun hnew => ⟨hnew.1, ?_⟩
      obtain ⟨r, hr⟩ := hnew.2
      exact h₂.roomier.exists_record? hr
    · exact .inr ⟨h₁.roomier.record?_of_none hnone, hr⟩
  spans := by
    intro i hi
    rcases h₂.spans i hi with hi | hi
    · exact h₁.spans i hi
    · exact .inr (h₁.size_args.trans hi)

/-- In a closed graph such an edit of a block that shares nothing leaves it sharing nothing, if
variadic operands are only added. -/
theorem editOf (he : EditsOnly g c h) (hc : g.Closed) (hs : g.SelfContained c)
    (hargs : Extends g.varArgs h.varArgs) : EditOf g c h := by
  have hkept : ∀ d, d ≠ c → Keeps g h d := by
    intro d hd
    have hsame : ∀ n, g.Lists d n → ∀ node, g.node? n = some node → h.node? n = some node := by
      intro n hn node hold
      rw [he.node n (hc.node d n hn) fun hcn => hd (hs.node d n hcn hn), hold]
    refine ⟨he.block d hd, hsame, ?_, ?_⟩
    · intro n hn node hold hrange
      exact ⟨inRange_of_extends hargs hrange, edgesOf_of_extends hargs hrange⟩
    · intro p hp
      exact he.record p fun hcp => hd (hs.record d p hcp hp)
  refine ⟨he.roomier, he.size_blocks.ge, ⟨?_, ?_⟩, ⟨?_, ?_⟩, hkept⟩
  · intro d n hn
    by_cases hd : d = c
    · subst hd
      rcases he.lists n hn with hold | hnew
      · exact lt_of_lt_of_le (hc.node d n hold) he.roomier.nodes
      · exact hnew.2
    · exact lt_of_lt_of_le (hc.node d n ((hkept d hd).lists_iff.1 hn)) he.roomier.nodes
  · intro d p hp
    by_cases hd : d = c
    · subst hd
      rcases he.names p hp with hold | hnew
      · obtain ⟨r, hr⟩ := hc.record d p hold
        exact he.roomier.exists_record? hr
      · exact hnew.2
    · obtain ⟨r, hr⟩ := hc.record d p (((hkept d hd).names_iff hc).1 hp)
      exact he.roomier.exists_record? hr
  · intro d n hcn hdn
    by_contra hd
    have hdn' := (hkept d hd).lists_iff.1 hdn
    rcases he.lists n hcn with hold | hnew
    · exact hd (hs.node d n hold hdn')
    · exact Nat.not_lt.2 hnew.1 (hc.node d n hdn')
  · intro d p hcp hdp
    by_contra hd
    have hdp' := ((hkept d hd).names_iff hc).1 hdp
    rcases he.names p hcp with hold | ⟨hnone, _⟩
    · exact hd (hs.record d p hold hdp')
    · obtain ⟨r, hr⟩ := hc.record d p hdp'
      rw [hnone] at hr
      cases hr

end EditsOnly

/-! ## Edits of successors -/

/-- Changing one record of a block. -/
theorem editsOnly_record (hp : g.Names c p) (hsame : SameFunction g h) (hroom : Roomier g h)
    (hblocks : h.blocks = g.blocks) (hnodes : h.nodes = g.nodes) (hargs : h.varArgs = g.varArgs)
    (hrecord : ∀ q, q ≠ p → h.record? q = g.record? q) : EditsOnly g c h := by
  have hblock : ∀ d, h.block? d = g.block? d := fun d => by rw [block?, block?, hblocks]
  have hnode : ∀ n, h.node? n = g.node? n := fun n => by rw [node?, node?, hnodes]
  refine ⟨⟨hsame, hroom, by rw [hblocks], by rw [hargs], fun d _ => hblock d, fun n _ _ => hnode n,
    fun i _ _ => by rw [hargs], ?_, ?_⟩, ?_, ?_⟩
  · intro q hq r hr
    rw [hrecord q (fun heq => hq (heq ▸ hp)), hr]
  · intro n hn
    rw [Lists, hblock] at hn
    exact .inl hn
  · intro q hq
    simp only [Names, hblock, hnode] at hq
    exact .inl hq
  · intro i hi
    simp only [Spans, Lists, hblock, hnode] at hi
    exact .inl hi

/-- Giving the last node of a block another target, if it is a jump. -/
theorem editsOnly_modifyJump (hterm : g.terminalNode? c = some (n, node)) (target : BlockId) :
    EditsOnly g c (g.modifyNode n fun node => { node with payload := .jump target }) := by
  have hn := lists_of_terminalNode? hterm
  refine ⟨⟨⟨rfl, rfl, rfl, rfl, rfl, rfl⟩, ⟨by simp [modifyNode], le_rfl, le_rfl, le_rfl, le_rfl⟩,
    rfl, le_rfl, fun d _ => rfl, ?_, fun _ _ _ => rfl, fun _ _ _ h => h, fun m hm => .inl hm⟩, ?_,
      ?_⟩
  · intro m _ hm
    have hne : n ≠ m := by
      rintro rfl
      exact hm hn
    rw [node?_modifyNode, if_neg hne]
  · rintro q ⟨hq, block, hb, m, hm, other, hother, rfl⟩
    rw [node?_modifyNode] at hother
    split at hother
    · obtain ⟨old, _, rfl⟩ := Option.map_eq_some_iff.1 hother
      simp [Payload.isRecord, Payload.shape?] at hq
    · exact .inl ⟨hq, block, hb, m, hm, other, hother, rfl⟩
  · rintro i ⟨m, hm, other, first, count, hother, hchildren, hi⟩
    rw [node?_modifyNode] at hother
    split at hother
    · obtain ⟨old, hold, rfl⟩ := Option.map_eq_some_iff.1 hother
      exact .inl ⟨m, hm, old, first, count, hold, hchildren, hi⟩
    · exact .inl ⟨m, hm, other, first, count, hother, hchildren, hi⟩

/-- **Pointing a slot elsewhere** touches only what belongs to the block. -/
theorem editsOnly_setSuccessor (hok : g.setSuccessor c slot t = .ok h) :
    EditsOnly g c h ∧ h.varArgs = g.varArgs ∧
      ∀ i, h.successor? c i = if i = slot then some t else g.successor? c i := by
  rw [setSuccessor] at hok
  split at hok
  case h_1 => cases hok
  case h_2 n node hterm =>
    split at hok
    case isTrue => cases hok
    case isFalse hslot =>
      obtain ⟨old, hold⟩ : ∃ old, g.slotTarget? node.payload slot = some old :=
        Option.ne_none_iff_exists'.1 fun hnone => hslot (by simp [hnone])
      cases hp : node.payload with
      | branch r =>
        simp only [hp, Except.ok.injEq] at hok
        subst hok
        have hnames := names_of_terminalNode? hterm (by simp [hp, Payload.isRecord, Payload.shape?])
        refine ⟨editsOnly_record hnames ⟨rfl, rfl, rfl, rfl, rfl, rfl⟩
          ⟨le_rfl, by simp, le_rfl, le_rfl, le_rfl⟩ rfl rfl rfl ?_, rfl,
          (redirected_branch hterm hp hold t).self⟩
        intro q hq
        cases q <;> simp only [record?]
        case branch r' =>
          have hne : r ≠ r' := fun heq => hq (by rw [hp, heq])
          rw [Array.getElem?_modify, if_neg hne]
      | switch r =>
        simp only [hp, Except.ok.injEq] at hok
        subst hok
        have hnames := names_of_terminalNode? hterm (by simp [hp, Payload.isRecord, Payload.shape?])
        refine ⟨editsOnly_record hnames ⟨rfl, rfl, rfl, rfl, rfl, rfl⟩
          ⟨le_rfl, le_rfl, by simp, le_rfl, le_rfl⟩ rfl rfl rfl ?_, rfl,
          (redirected_switch hterm hp hold t).self⟩
        intro q hq
        cases q <;> simp only [record?]
        case switch r' =>
          have hne : r ≠ r' := fun heq => hq (by rw [hp, heq])
          rw [Array.getElem?_modify, if_neg hne]
      | jump t₀ =>
        simp only [hp, Except.ok.injEq] at hok
        subst hok
        obtain rfl : slot = 0 := by
          by_contra hne
          simp [hp, slotTarget?, hne] at hold
        exact ⟨editsOnly_modifyJump hterm t, rfl, successor?_modifyJump hterm hp t⟩
      | _ => simp [hp, slotTarget?] at hold

/-- The nodes that were added name no record and have no variadic operands. -/
def AddsPlain (g h : Graph) : Prop :=
  ∀ n node, g.nodes.size ≤ n → h.node? n = some node →
    node.payload.isRecord = false ∧ node.children.isVariadic = false

theorem addsPlain_of_size_eq (hsize : h.nodes.size = g.nodes.size) : AddsPlain g h :=
  fun _ _ hn hnode => absurd (hsize ▸ lt_size_of_node? hnode) (Nat.not_lt.2 hn)

theorem AddsPlain.addNode (ha : AddsPlain g h) (node : Node)
    (hpayload : node.payload.isRecord = false)
    (hchildren : node.children.isVariadic = false) : AddsPlain g (h.addNode node).2 := by
  intro n other hn hother
  rw [node?_addNode] at hother
  split at hother
  · obtain rfl := Option.some.inj hother
    exact ⟨hpayload, hchildren⟩
  · exact ha n other hn hother

theorem addsPlain_convertToJump (hok : g.convertToJump c t = .ok h) :
    SameFunction g h ∧ AddsPlain g h := by
  cases hterm : g.terminalNode? c with
  | none => simp [convertToJump, hterm] at hok
  | some e =>
    obtain ⟨id, last⟩ := e
    have hnone : AddsPlain g g := addsPlain_of_size_eq rfl
    by_cases hkind : last.kind = .jump
    · simp only [convertToJump, hterm, hkind, if_true, Except.ok.injEq] at hok
      subst hok
      exact ⟨⟨rfl, rfl, rfl, rfl, rfl, rfl⟩, addsPlain_of_size_eq (by simp [modifyNode])⟩
    · by_cases hset : (last.child 0).isSet = true
      · simp only [convertToJump, hterm, hkind, if_false, hset, if_true, Except.ok.injEq] at hok
        subst hok
        have hjump := hnone.addNode (jumpNode t last.origin) rfl rfl
        have hphantom := hjump.addNode (phantomNode (last.child 0) last.origin) rfl rfl
        exact ⟨⟨rfl, rfl, rfl, rfl, rfl, rfl⟩, hphantom⟩
      · simp only [convertToJump, hterm, hkind, if_false, hset, Bool.false_eq_true,
          Except.ok.injEq] at hok
        subst hok
        have hjump := hnone.addNode (jumpNode t last.origin) rfl rfl
        exact ⟨⟨rfl, rfl, rfl, rfl, rfl, rfl⟩, hjump⟩

/-- Cutting a block touches only what belongs to it, when what was added shares nothing. -/
theorem editsOnly_cut {last : Node} {kept : List NodeId} {jump : NodeId}
    (hb : g.block? c = some block) (hcut : Cut g c block last t kept jump h)
    (hsame : SameFunction g h) (hadded : AddsPlain g h) : EditsOnly g c h := by
  have hnode : ∀ m < g.nodes.size, h.node? m = g.node? m := fun m hm =>
    hcut.grows.nodes.getElem? m hm
  -- what the block lists now it listed before, or it was added
  have hlists : ∀ m, h.Lists c m → g.Lists c m ∨ g.nodes.size ≤ m ∧ m < h.nodes.size := by
    rintro m ⟨other, hother, hm⟩
    rw [hcut.block?_self] at hother
    obtain rfl := Option.some.inj hother
    rw [← List.append_assoc] at hm
    rcases List.mem_append.1 hm with hm | hm
    · exact .inl ⟨block, hb, Cut.mem_of_mem_dropLast hm⟩
    · exact .inr ⟨hcut.fresh hm, hcut.lt_size hm⟩
  refine
    { same := hsame
      roomier := hcut.grows.roomier
      size_blocks := hcut.size_blocks
      size_args := hcut.grows.varArgs.size_le
      block := fun d => hcut.block?_of_ne
      node := fun m hm _ => hnode m hm
      arg := fun i hi _ => hcut.grows.varArgs.getElem? i hi
      record := fun p _ r => hcut.grows.record?_of_some
      lists := hlists
      names := ?names
      spans := ?spans }
  case names =>
    rintro p ⟨hp, other, hother, m, hm, node, hold, rfl⟩
    rcases lt_or_ge m g.nodes.size with hlt | hge
    · rw [hcut.block?_self] at hother
      obtain rfl := Option.some.inj hother
      rw [hnode m hlt] at hold
      rcases List.mem_append.1 hm with hm | hm
      · exact .inl ⟨hp, block, hb, m, List.mem_of_mem_dropLast hm, node, hold, rfl⟩
      · exact absurd (hcut.fresh hm) (Nat.not_le.2 hlt)
    · rw [(hadded m node hge hold).1] at hp
      cases hp
  case spans =>
    rintro i ⟨m, hm, node, first, count, hold, hchildren, hi⟩
    rcases lt_or_ge m g.nodes.size with hlt | hge
    · rw [hnode m hlt] at hold
      have hm' := (hlists m hm).resolve_right fun hnew => Nat.not_lt.2 hnew.1 hlt
      exact .inl ⟨m, hm', node, first, count, hold, hchildren, hi⟩
    · have hplain := (hadded m node hge hold).2
      rw [hchildren] at hplain
      cases hplain

/-- **Ending a block in a jump** touches only what belongs to the block. -/
theorem editsOnly_convertToJump (hok : g.convertToJump c t = .ok h) :
    EditsOnly g c h ∧ Extends g.varArgs h.varArgs := by
  obtain ⟨hsame, hadded⟩ := addsPlain_convertToJump hok
  rcases convertToJump_cases hok with ⟨n, last, hterm, _, rfl⟩ | ⟨n, last, block, kept, jump, _, _,
    hb, hcut⟩
  · exact ⟨editsOnly_modifyJump hterm t, .refl _⟩
  · exact ⟨editsOnly_cut hb hcut hsame hadded, hcut.grows.varArgs⟩

/-- In a closed graph the block shares nothing still, and only the one slot has changed. -/
theorem editOf_setSuccessor (hc : g.Closed) (hs : g.SelfContained c)
    (hok : g.setSuccessor c slot t = .ok h) :
    EditOf g c h ∧ ∀ i, h.successor? c i = if i = slot then some t else g.successor? c i := by
  obtain ⟨he, hargs, hsuccessor⟩ := editsOnly_setSuccessor hok
  exact ⟨he.editOf hc hs (hargs ▸ .refl _), hsuccessor⟩

/-- In a closed graph the block that ends in a jump shares nothing still. -/
theorem editOf_convertToJump (hc : g.Closed) (hs : g.SelfContained c)
    (hok : g.convertToJump c t = .ok h) : EditOf g c h := by
  obtain ⟨he, hargs⟩ := editsOnly_convertToJump hok
  exact he.editOf hc hs hargs

end Unroller.Graph
