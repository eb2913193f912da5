import Mathlib.Tactic
import Unroller.Proofs.Graph.WellFormed

/-!
# The rules of structural validity

The search for defects goes over placements, payloads and operands in turn and stops at the first
defect.  Here the rules it enforces are written down one by one, in terms of positions in the lists
of the live blocks and without the tests of the search, and the two are proved to agree.

* `MayCarry`: the payloads that go with a kind; `mayCarry_iff`: they are those that are admitted.
* `Lawful`: all rules.
* `validate_iff_numbered_lawful`: a graph passes exactly when it keeps them and its blocks are in
  the slots of their indices.
* `PayloadInPlace`: a record goes with the kind of the node and exists, a kind that names a local
  names one.
* `payloads_of_validate`: this holds of what the blocks of a valid graph run, while nobody looks at
  the payloads of phis; `phiCarrying_accepted` is a phi that breaks it.
-/

namespace Unroller

/-- Kinds that cannot do without their payload: a target, targets, or a layout. -/
def Kind.needsPayload : Kind → Bool
  | .jump | .branch | .switch | .callVarargs | .loadVarargs | .varargsLength => true
  | _ => false

namespace Graph

variable {g : Graph} {b : BlockId} {n : NodeId} {block : Block} {node : Node} {kind : Kind}
  {payload : Payload}

/-! ## Payloads -/

/-- What a node of a kind may carry: its own sort of payload, with a record that exists; and
nothing, or a property, when its kind does not need a payload. -/
inductive MayCarry (g : Graph) : Kind → Payload → Prop where
  | jump (target : BlockId) : MayCarry g .jump (.jump target)
  | branch {r : Nat} (exists_record : r < g.branches.size) : MayCarry g .branch (.branch r)
  | switch {r : Nat} (exists_record : r < g.switches.size) : MayCarry g .switch (.switch r)
  | callVarargs {r : Nat} (exists_record : r < g.callLayouts.size) :
    MayCarry g .callVarargs (.callVarargs r)
  | loadVarargs {kind : Kind} {r : Nat}
    (loads : kind = .loadVarargs ∨ kind = .varargsLength ∨ kind = .forwardVarargs)
    (exists_record : r < g.loadLayouts.size) : MayCarry g kind (.loadVarargs r)
  | slot {kind : Kind} (names : kind.hasLocal = true) (l : Local) : MayCarry g kind (.slot l)
  | constant {kind : Kind} (holds : kind.isConstant = true) (value : Constant) :
    MayCarry g kind (.constant value)
  | bare {kind : Kind} (unnamed : kind.hasLocal = false) (free : kind.needsPayload = false) :
    MayCarry g kind .bare
  | property {kind : Kind} (unnamed : kind.hasLocal = false) (free : kind.needsPayload = false)
    (id : Nat) : MayCarry g kind (.property id)

theorem MayCarry.admits (h : g.MayCarry kind payload) : g.admits kind payload = true := by
  cases h with
  | jump target => rfl
  | branch hr | switch hr | callVarargs hr => simpa [Graph.admits] using hr
  | loadVarargs hkind hr => rcases hkind with rfl | rfl | rfl <;> simpa [Graph.admits] using hr
  | slot hl l => cases kind <;> simp [Kind.hasLocal] at hl <;> rfl
  | constant hc value => cases kind <;> simp [Kind.isConstant] at hc <;> rfl
  | bare hl hp | property hl hp id =>
    cases kind <;> simp [Kind.hasLocal, Kind.needsPayload] at hl hp <;> rfl

theorem mayCarry_of_admits (h : g.admits kind payload = true) : g.MayCarry kind payload := by
  cases payload <;> cases kind <;>
    simp [Graph.admits, Kind.hasLocal, Kind.isConstant] at h <;>
    constructor <;> simp [Kind.hasLocal, Kind.isConstant, Kind.needsPayload, h]

/-- **Payloads.**  The ordered tests of the search admit what a kind may carry. -/
theorem mayCarry_iff : g.MayCarry kind payload ↔ g.admits kind payload = true :=
  ⟨MayCarry.admits, mayCarry_of_admits⟩

/-! ## All rules -/

/-- The nodes that live blocks list, block after block, the phis of each before its other nodes. -/
def listing (g : Graph) : List NodeId := g.liveBlocks.flatMap fun e => e.2.phis ++ e.2.nodes

/-- The rules of structural validity. -/
structure Lawful (g : Graph) : Prop where
  /-- The slot of the entry is live. -/
  entry_live : g.isLive entry = true
  /-- Listed nodes exist. -/
  exists_node : ∀ n ∈ g.listing, n < g.nodes.size
  /-- Every listed node is listed once. -/
  once : ∀ n ∈ g.listing, g.listing.count n = 1
  /-- The first list of a block holds phis. -/
  phi : ∀ b block, g.block? b = some block → ∀ n ∈ block.phis, ∀ node, g.node? n = some node →
    node.kind = .phi
  /-- The second list holds none. -/
  not_phi : ∀ b block, g.block? b = some block → ∀ n ∈ block.nodes, ∀ node,
    g.node? n = some node → node.kind ≠ .phi
  /-- No block is empty. -/
  ne_nil : ∀ b block, g.block? b = some block → block.nodes ≠ []
  /-- The last node of a block ends it, and no other node does. -/
  terminal : ∀ b (block : Block), g.block? b = some block → ∀ (i : Nat) n node,
    block.nodes[i]? = some n → g.node? n = some node →
      (node.kind.isTerminal = true ↔ i + 1 = block.nodes.length)
  /-- A pad has one node. -/
  pad : ∀ b block, g.block? b = some block → block.flags.edgePad = true → block.nodes.length = 1
  /-- Variadic ranges lie within the list of variadic operands. -/
  range : ∀ b block, g.block? b = some block → ∀ n ∈ block.phis ++ block.nodes, ∀ node,
    g.node? n = some node → ∀ first count, node.children = .variadic first count →
      first + count ≤ g.varArgs.size
  /-- A node uses phis of its block and nodes that stand before it. -/
  operand : ∀ b (block : Block), g.block? b = some block → ∀ (i : Nat) n node,
    block.nodes[i]? = some n → g.node? n = some node → ∀ c ∈ g.operands node,
      c ∈ block.phis ∨ ∃ j < i, block.nodes[j]? = some c
  /-- A phi uses nodes that some live block lists. -/
  phi_operand : ∀ b block, g.block? b = some block → ∀ n ∈ block.phis, ∀ node,
    g.node? n = some node → ∀ c ∈ g.operands node, ∃ d other, g.block? d = some other ∧
      c ∈ other.phis ++ other.nodes
  /-- A node that is no phi carries what its kind may carry. -/
  payload : ∀ b block, g.block? b = some block → ∀ n ∈ block.nodes, ∀ node,
    g.node? n = some node → g.MayCarry node.kind node.payload
  /-- Every successor slot is set and names a live block. -/
  successor : ∀ b block, g.block? b = some block → ∀ slot < g.successorCount b, ∃ t,
    g.successor? b slot = some t ∧ g.isLive t = true

theorem mem_listing :
    n ∈ g.listing ↔ ∃ b block, g.block? b = some block ∧ n ∈ block.phis ++ block.nodes := by
  simp only [listing, List.mem_flatMap, Prod.exists, mem_liveBlocks]

/-- A position in a list cuts it in two. -/
theorem getElem?_eq_some_iff_split {l : List NodeId} {i : Nat} :
    l[i]? = some n ↔ ∃ before after, l = before ++ n :: after ∧ before.length = i := by
  constructor
  · intro h
    obtain ⟨hi, hn⟩ := List.getElem?_eq_some_iff.1 h
    refine ⟨l.take i, l.drop (i + 1), ?_, List.length_take_of_le hi.le⟩
    rw [← hn, ← List.drop_eq_getElem_cons hi, List.take_append_drop]
  · rintro ⟨before, after, rfl, rfl⟩
    simp

/-- What stands before a position stands at a smaller one. -/
theorem mem_before_iff {before after : List NodeId} {c : NodeId} :
    c ∈ before ↔ ∃ j < before.length, (before ++ n :: after)[j]? = some c := by
  rw [List.mem_iff_getElem?]
  constructor
  · rintro ⟨j, hj⟩
    obtain ⟨hlt, _⟩ := List.getElem?_eq_some_iff.1 hj
    exact ⟨j, hlt, by rw [List.getElem?_append_left hlt, hj]⟩
  · rintro ⟨j, hlt, hj⟩
    exact ⟨j, by rw [← hj, List.getElem?_append_left hlt]⟩

theorem isPhi_eq_true_iff (hnode : g.node? n = some node) :
    g.isPhi n = true ↔ node.kind = .phi := by
  simp [isPhi, hnode]

theorem inRange_iff {c : Children} :
    g.InRange c ↔ ∀ first count, c = .variadic first count → first + count ≤ g.varArgs.size := by
  cases c <;> simp [InRange]

theorem WellFormed.lawful (h : g.WellFormed) : g.Lawful := by
  have hnodup : g.listing.Nodup := nodup_listed_iff.2 ⟨h.nodup, h.apart⟩
  refine
    { entry_live := h.entry_live
      exists_node := ?exists_node
      once := List.nodup_iff_count_eq_one.1 hnodup
      phi := ?phi
      not_phi := ?not_phi
      ne_nil := fun b block hb => (h.block b block hb).ne_nil
      terminal := ?terminal
      pad := fun b block hb => (h.block b block hb).pad
      range := ?range
      operand := ?operand
      phi_operand := ?phi_operand
      payload := ?payload
      successor := fun b block hb => (h.block b block hb).successor }
  case exists_node =>
    intro n hn
    obtain ⟨b, block, hb, hmem⟩ := mem_listing.1 hn
    exact h.exists_node b block hb n hmem
  case phi =>
    intro b block hb n hn node hnode
    exact (isPhi_eq_true_iff hnode).1 ((h.block b block hb).phis n hn)
  case not_phi =>
    intro b block hb n hn node hnode hphi
    have hnot := (h.block b block hb).nodes n hn
    rw [(isPhi_eq_true_iff hnode).2 hphi] at hnot
    cases hnot
  case terminal =>
    intro b block hb i n node hn hnode
    obtain ⟨before, after, hsplit, rfl⟩ := getElem?_eq_some_iff_split.1 hn
    rw [((h.block b block hb).node before n after hsplit node hnode).terminal, hsplit]
    cases after <;> simp
  case range =>
    intro b block hb n hn node hnode
    rw [← inRange_iff]
    rcases List.mem_append.1 hn with hn | hn
    · exact ((h.block b block hb).phi n hn node hnode).inRange
    · obtain ⟨before, after, hsplit⟩ := List.append_of_mem hn
      exact ((h.block b block hb).node before n after hsplit node hnode).inRange
  case operand =>
    intro b block hb i n node hn hnode c hc
    obtain ⟨before, after, hsplit, rfl⟩ := getElem?_eq_some_iff_split.1 hn
    rw [hsplit, ← mem_before_iff]
    exact (((h.block b block hb).node before n after hsplit node hnode).visible c hc).symm
  case phi_operand =>
    intro b block hb n hn node hnode
    exact ((h.block b block hb).phi n hn node hnode).listed
  case payload =>
    intro b block hb n hn node hnode
    obtain ⟨before, after, hsplit⟩ := List.append_of_mem hn
    exact mayCarry_iff.2 ((h.block b block hb).node before n after hsplit node hnode).admits

namespace Lawful

variable (h : g.Lawful)

include h

theorem exists_listed (hb : g.block? b = some block) (hn : n ∈ block.phis ++ block.nodes) :
    ∃ node, g.node? n = some node :=
  exists_node? (h.exists_node n (mem_listing.2 ⟨b, block, hb, hn⟩))

theorem blockOk (hb : g.block? b = some block) : g.BlockOk b block := by
  refine
    { phis := ?phis
      nodes := ?nodes
      ne_nil := h.ne_nil b block hb
      node := ?node
      phi := ?phi
      pad := h.pad b block hb
      successor := h.successor b block hb }
  case phis =>
    intro n hn
    obtain ⟨node, hnode⟩ := h.exists_listed hb (List.mem_append_left _ hn)
    exact (isPhi_eq_true_iff hnode).2 (h.phi b block hb n hn node hnode)
  case nodes =>
    intro n hn
    obtain ⟨node, hnode⟩ := h.exists_listed hb (List.mem_append_right _ hn)
    rw [Bool.eq_false_iff]
    exact fun hphi => h.not_phi b block hb n hn node hnode ((isPhi_eq_true_iff hnode).1 hphi)
  case node =>
    intro before n after hsplit node hnode
    have hat : block.nodes[before.length]? = some n :=
      getElem?_eq_some_iff_split.2 ⟨before, after, hsplit, rfl⟩
    have hn : n ∈ block.nodes := List.mem_of_getElem? hat
    refine ⟨?_, mayCarry_iff.1 (h.payload b block hb n hn node hnode),
      inRange_iff.2 (h.range b block hb n (List.mem_append_right _ hn) node hnode), ?_⟩
    · rw [Bool.eq_iff_iff, h.terminal b block hb _ n node hat hnode, hsplit]
      cases after <;> simp
    · intro c hc
      rw [mem_before_iff, ← hsplit]
      exact (h.operand b block hb _ n node hat hnode c hc).symm
  case phi =>
    intro n hn node hnode
    exact ⟨inRange_iff.2 (h.range b block hb n (List.mem_append_left _ hn) node hnode),
      h.phi_operand b block hb n hn node hnode⟩

theorem wellFormed (hnumbered : g.Numbered) : g.WellFormed := by
  have hnodup : g.listing.Nodup := List.nodup_iff_count_eq_one.2 h.once
  obtain ⟨hinside, hapart⟩ := nodup_listed_iff.1 hnodup
  exact ⟨h.entry_live, hnumbered,
    fun b block hb n hn => h.exists_node n (mem_listing.2 ⟨b, block, hb, hn⟩), hinside, hapart,
    fun b block hb => h.blockOk hb⟩

end Lawful

/-- **The search for defects accepts exactly the graphs that keep all rules**, if their blocks are
in the slots they were made for. -/
theorem validate_iff_numbered_lawful (g : Graph) :
    g.validate = .ok () ↔ g.Numbered ∧ g.Lawful :=
  validate_eq_ok_iff.trans
    ⟨fun h => ⟨h.numbered, h.lawful⟩, fun ⟨hnumbered, h⟩ => h.wellFormed hnumbered⟩

/-! ## Payloads in place -/

/-- The payload of a node is in place: a record that it names exists and is of the sort that goes
with the node's kind, and a kind that names a local has one. -/
structure PayloadInPlace (g : Graph) (node : Node) : Prop where
  branch : ∀ r, node.payload = .branch r → node.kind = .branch ∧ r < g.branches.size
  switch : ∀ r, node.payload = .switch r → node.kind = .switch ∧ r < g.switches.size
  callVarargs : ∀ r, node.payload = .callVarargs r →
    node.kind = .callVarargs ∧ r < g.callLayouts.size
  loadVarargs : ∀ r, node.payload = .loadVarargs r →
    (node.kind = .loadVarargs ∨ node.kind = .varargsLength ∨ node.kind = .forwardVarargs) ∧
      r < g.loadLayouts.size
  slot : node.kind.hasLocal = true → ∃ l, node.payload = .slot l

theorem MayCarry.inPlace (h : g.MayCarry node.kind node.payload) : g.PayloadInPlace node := by
  obtain ⟨kind, children, payload, origin, prediction⟩ := node
  cases h with
  | jump target => exact ⟨nofun, nofun, nofun, nofun, nofun⟩
  | branch hr =>
    refine ⟨?_, nofun, nofun, nofun, nofun⟩
    rintro r ⟨⟩
    exact ⟨rfl, hr⟩
  | switch hr =>
    refine ⟨nofun, ?_, nofun, nofun, nofun⟩
    rintro r ⟨⟩
    exact ⟨rfl, hr⟩
  | callVarargs hr =>
    refine ⟨nofun, nofun, ?_, nofun, nofun⟩
    rintro r ⟨⟩
    exact ⟨rfl, hr⟩
  | loadVarargs hkind hr =>
    refine ⟨nofun, nofun, nofun, ?_, ?_⟩
    · rintro r ⟨⟩
      exact ⟨hkind, hr⟩
    · rcases hkind with rfl | rfl | rfl <;> exact nofun
  | slot hl l => exact ⟨nofun, nofun, nofun, nofun, fun _ => ⟨l, rfl⟩⟩
  | constant hc value =>
    refine ⟨nofun, nofun, nofun, nofun, ?_⟩
    cases kind <;> simp [Kind.isConstant] at hc <;> exact nofun
  | bare hl hp | property hl hp id =>
    refine ⟨nofun, nofun, nofun, nofun, fun hlocal => ?_⟩
    rw [hl] at hlocal
    cases hlocal

/-- A phi that names a local has its payload in place. -/
theorem inPlace_of_slot {l : Local} (h : node.payload = .slot l) : g.PayloadInPlace node := by
  refine ⟨?_, ?_, ?_, ?_, fun _ => ⟨l, h⟩⟩
  all_goals
    intro r hr
    rw [h] at hr
    cases hr

/-- The graph with another payload in one node. -/
def withPayload (g : Graph) (n : NodeId) (payload : Payload) : Graph :=
  g.modifyNode n fun node => { node with payload := payload }

theorem exists_of_node?_withPayload {m : NodeId} {image : Node}
    (himage : (g.withPayload n payload).node? m = some image) :
    ∃ node, g.node? m = some node ∧ image.kind = node.kind ∧ image.children = node.children := by
  rw [withPayload, node?_modifyNode] at himage
  split at himage
  · obtain ⟨node, hnode, rfl⟩ := Option.map_eq_some_iff.1 himage
    exact ⟨node, hnode, rfl, rfl⟩
  · exact ⟨image, himage, rfl, rfl⟩

theorem isPhi_withPayload (g : Graph) (n : NodeId) (payload : Payload) (m : NodeId) :
    (g.withPayload n payload).isPhi m = g.isPhi m := by
  rw [isPhi, isPhi, withPayload, node?_modifyNode]
  split
  · cases g.node? m <;> rfl
  · rfl

/-- A node that a block runs is no phi. -/
theorem node?_withPayload_of_mem (h : g.WellFormed) (hb : g.block? b = some block)
    (hn : n ∈ block.phis) {c : BlockId} {other : Block} (hc : g.block? c = some other) {m : NodeId}
    (hm : m ∈ other.nodes) (payload : Payload) :
    (g.withPayload n payload).node? m = g.node? m := by
  have hne : n ≠ m := by
    rintro rfl
    have hphi := (h.block b block hb).phis n hn
    rw [(h.block c other hc).nodes n hm] at hphi
    cases hphi
  rw [Graph.withPayload, node?_modifyNode, if_neg hne]

theorem terminalNode?_withPayload (h : g.WellFormed) (hb : g.block? b = some block)
    (hn : n ∈ block.phis) (payload : Payload) (c : BlockId) :
    (g.withPayload n payload).terminalNode? c = g.terminalNode? c := by
  rw [terminalNode?, terminalNode?, Graph.withPayload, block?_modifyNode]
  cases hc : g.block? c with
  | none => rfl
  | some other =>
    cases hlast : other.nodes.getLast? with
    | none => simp [hlast]
    | some last =>
      have hsame := node?_withPayload_of_mem h hb hn hc (List.mem_of_getLast? hlast) payload
      rw [Graph.withPayload] at hsame
      simp only [Option.bind_eq_bind, Option.bind_some, hlast, hsame]

/-- **The search does not look at the payloads of phis.** -/
theorem WellFormed.withPayload (h : g.WellFormed) (hb : g.block? b = some block)
    (hn : n ∈ block.phis) (payload : Payload) : (g.withPayload n payload).WellFormed := by
  have hterm := terminalNode?_withPayload h hb hn payload
  refine
    { entry_live := h.entry_live
      numbered := h.numbered
      exists_node := ?exists_node
      nodup := h.nodup
      apart := h.apart
      block := fun c other hc => ?block }
  case exists_node =>
    intro c other hc m hm
    simpa [Graph.withPayload, modifyNode] using h.exists_node c other hc m hm
  have hok := h.block c other hc
  refine
    { phis := ?phis
      nodes := ?nodes
      ne_nil := hok.ne_nil
      node := ?node
      phi := ?phi
      pad := hok.pad
      successor := ?successor }
  case phis =>
    intro m hm
    rw [isPhi_withPayload]
    exact hok.phis m hm
  case nodes =>
    intro m hm
    rw [isPhi_withPayload]
    exact hok.nodes m hm
  case node =>
    intro before m after hsplit node hnode
    rw [node?_withPayload_of_mem h hb hn hc (by simp [hsplit])] at hnode
    obtain ⟨hterminal, hadmits, hrange, hvisible⟩ := hok.node before m after hsplit node hnode
    exact ⟨hterminal, hadmits, hrange, hvisible⟩
  case phi =>
    intro m hm image himage
    obtain ⟨node, hnode, _, hchildren⟩ := exists_of_node?_withPayload himage
    obtain ⟨hrange, hlisted⟩ := hok.phi m hm node hnode
    exact ⟨hchildren ▸ hrange, by rw [operands, hchildren]; exact hlisted⟩
  case successor =>
    intro slot hslot
    have hcount : (g.withPayload n payload).successorCount c = g.successorCount c :=
      successorCount_congr rfl (congrArg _ (hterm c))
    have hsame : (g.withPayload n payload).successor? c slot = g.successor? c slot :=
      successor?_congr (h := g.withPayload n payload) (g := g) rfl rfl (congrArg _ (hterm c)) slot
    rw [hcount] at hslot
    obtain ⟨t, ht, hlive⟩ := hok.successor slot hslot
    exact ⟨t, hsame.trans ht, hlive⟩

/-- **Payloads in a valid graph.**  Those of the nodes that blocks run are in place.  All of them
are, those of phis included, exactly when every phi names a local, which the search does not ask
for: it accepts a valid graph with any payload in any phi. -/
theorem payloads_of_validate (hvalid : g.validate = .ok ()) :
    (∀ b block, g.block? b = some block → ∀ n ∈ block.nodes, ∀ node, g.node? n = some node →
      g.PayloadInPlace node) ∧
    ((∀ b block, g.block? b = some block → ∀ n ∈ block.phis ++ block.nodes, ∀ node,
        g.node? n = some node → g.PayloadInPlace node) ↔
      ∀ b block, g.block? b = some block → ∀ n ∈ block.phis, ∀ node, g.node? n = some node →
        ∃ l, node.payload = .slot l) ∧
    ∀ b block, g.block? b = some block → ∀ n ∈ block.phis, ∀ payload,
      (g.withPayload n payload).validate = .ok () := by
  have hwell := validate_eq_ok_iff.1 hvalid
  have hlawful := hwell.lawful
  have hrun : ∀ b block, g.block? b = some block → ∀ n ∈ block.nodes, ∀ node,
      g.node? n = some node → g.PayloadInPlace node := fun b block hb n hn node hnode =>
    (hlawful.payload b block hb n hn node hnode).inPlace
  refine ⟨hrun, ⟨?_, ?_⟩, fun b block hb n hn payload =>
    validate_eq_ok_iff.2 (hwell.withPayload hb hn payload)⟩
  · intro hall b block hb n hn node hnode
    have hkind := hlawful.phi b block hb n hn node hnode
    exact (hall b block hb n (List.mem_append_left _ hn) node hnode).slot (by rw [hkind]; rfl)
  · intro hphis b block hb n hn node hnode
    rcases List.mem_append.1 hn with hn | hn
    · obtain ⟨l, hl⟩ := hphis b block hb n hn node hnode
      exact inPlace_of_slot hl
    · exact hrun b block hb n hn node hnode

/-- A block with a phi, a read of it and a branch on what was read, and the block it leads to. -/
def phiCarrying (payload : Payload) : Graph where
  locals := 1
  blocks := #[some { phis := [0], nodes := [1, 2] }, some { index := 1, nodes := [3] }]
  nodes := #[{ kind := .phi, payload := payload },
    { kind := .getLocal, children := .one (.untyped 0), payload := .slot 0 },
    { kind := .branch, children := .one (.untyped 1), payload := .branch 0 }, { kind := .ret }]
  branches := #[⟨{ block := 1 }, { block := 1 }⟩]

theorem validate_phiCarrying : (phiCarrying (.slot 0)).validate = .ok () := by
  have hdefects : (phiCarrying (.slot 0)).defects.isEmpty = true := by decide +kernel
  rw [validate, List.isEmpty_iff.1 hdefects]

theorem payloads_of_validate_phiCarrying :
    (phiCarrying (.slot 0)).validate = .ok () ∧ ∀ n ∈ [0, 1, 2, 3], ∀ node,
      (phiCarrying (.slot 0)).node? n = some node →
      (phiCarrying (.slot 0)).PayloadInPlace node := by
  refine ⟨validate_phiCarrying, ?_⟩
  have hall := (payloads_of_validate validate_phiCarrying).2.1.2 ?_
  · intro n hn
    simp only [List.mem_cons, List.not_mem_nil, or_false] at hn
    rcases hn with rfl | rfl | rfl | rfl
    · exact hall 0 _ rfl 0 (by simp)
    · exact hall 0 _ rfl 1 (by simp)
    · exact hall 0 _ rfl 2 (by simp)
    · exact hall 1 _ rfl 3 (by simp)
  · intro b block hb n hn node hnode
    have hblocks : (phiCarrying (.slot 0)).liveBlocks.flatMap (fun e => e.2.phis) = [0] := rfl
    have hmem : n ∈ [0] := hblocks ▸ List.mem_flatMap.2 ⟨(b, block), mem_liveBlocks.2 hb, hn⟩
    obtain rfl := List.mem_singleton.1 hmem
    obtain rfl := Option.some.inj hnode
    exact ⟨0, rfl⟩

/-- **A phi with a record is accepted**, although branch records do not go with phis and this one
does not exist. -/
theorem phiCarrying_accepted :
    (phiCarrying (.branch 7)).validate = .ok () ∧
      ∃ block node, (phiCarrying (.branch 7)).block? 0 = some block ∧ 0 ∈ block.phis ∧
        (phiCarrying (.branch 7)).node? 0 = some node ∧ node.payload = .branch 7 ∧
        ¬ (phiCarrying (.branch 7)).PayloadInPlace node := by
  have hdefects : (phiCarrying (.branch 7)).defects.isEmpty = true := by decide +kernel
  refine ⟨by rw [validate, List.isEmpty_iff.1 hdefects], _, _, rfl, List.mem_singleton_self 0, rfl,
    rfl, fun hplace => ?_⟩
  cases (hplace.branch 7 rfl).1

end Graph

end Unroller
