import Mathlib.Tactic
import Unroller.Proofs.Graph.Sound

/-!
# Pointing a slot elsewhere

Pointing a successor slot of a block at another live block changes nothing else, unless other blocks
share the record of targets: then their slots change as well.

* `SharesRecord`, `Owned`: blocks that share their record of targets, and blocks that share with
  none.
* `Retargeted`: a graph with other targets; it stays sound when all targets are live.
* `Redirected`, `setSuccessor_ok`: what `setSuccessor` does, and that it succeeds.
-/

namespace Unroller.Graph

variable {g h : Graph} {b c d t : BlockId} {slot : Nat} {n : NodeId} {node image : Node}
  {block : Block}

/-! ## Shared records -/

/-- The terminals of two blocks name one record. -/
def SharesRecord (g : Graph) (c d : BlockId) : Prop :=
  ∃ e f r, g.terminalNode? c = some e ∧ g.terminalNode? d = some f ∧
    ((e.2.payload = .branch r ∧ f.2.payload = .branch r) ∨
      (e.2.payload = .switch r ∧ f.2.payload = .switch r))

theorem SharesRecord.symm (hs : SharesRecord g c d) : SharesRecord g d c := by
  obtain ⟨e, f, r, he, hf, h⟩ := hs
  exact ⟨f, e, r, hf, he, h.imp And.symm And.symm⟩

/-- Blocks that share a record lead to the same blocks. -/
theorem SharesRecord.successor?_eq (hs : SharesRecord g c d) (i : Nat) :
    g.successor? d i = g.successor? c i := by
  obtain ⟨e, f, r, he, hf, h⟩ := hs
  rw [successor?, successor?, he, hf]
  rcases h with ⟨h₁, h₂⟩ | ⟨h₁, h₂⟩ <;> simp only [h₁, h₂]

/-- The blocks from position `first` on share their records with no other block. -/
def Owned (first : BlockId) (g : Graph) : Prop :=
  ∀ c d, first ≤ c → d ≠ c → ¬ SharesRecord g c d

/-! ## Other targets -/

/-- A node with another target, if it is a jump. -/
structure Retarget (node image : Node) : Prop where
  kind : image.kind = node.kind
  children : image.children = node.children
  payload : image.payload = node.payload ∨
    ∃ t t', node.payload = .jump t ∧ image.payload = .jump t'

theorem Retarget.refl (node : Node) : Retarget node node := ⟨rfl, rfl, .inl rfl⟩

/-- A graph with other targets. -/
structure Retargeted (g h : Graph) : Prop where
  blocks : h.blocks = g.blocks
  form : h.form = g.form
  varArgs : h.varArgs = g.varArgs
  size_branches : h.branches.size = g.branches.size
  size_switches : h.switches.size = g.switches.size
  callLayouts : h.callLayouts = g.callLayouts
  loadLayouts : h.loadLayouts = g.loadLayouts
  size_nodes : h.nodes.size = g.nodes.size
  node : ∀ n node, g.node? n = some node → ∃ image, h.node? n = some image ∧ Retarget node image
  slotCount : ∀ r, h.slotCount (.switch r) = g.slotCount (.switch r)
  switchValues : ∀ r, h.switchValues (.switch r) = g.switchValues (.switch r)

namespace Retargeted

variable (hr : Retargeted g h)

include hr

theorem block?_eq (b : BlockId) : h.block? b = g.block? b := by
  rw [block?, block?, hr.blocks]

theorem isLive_eq (b : BlockId) : h.isLive b = g.isLive b := by
  rw [isLive, isLive, hr.block?_eq]

theorem node_of_some (hn : h.node? n = some image) :
    ∃ node, g.node? n = some node ∧ Retarget node image := by
  have hlt := lt_size_of_node? hn
  rw [hr.size_nodes] at hlt
  obtain ⟨node, hnode⟩ := exists_node? hlt
  obtain ⟨image', himage', hs⟩ := hr.node n node hnode
  rw [hn] at himage'
  obtain rfl := Option.some.inj himage'
  exact ⟨node, hnode, hs⟩

theorem operands_eq (hs : Retarget node image) : h.operands image = g.operands node := by
  rw [operands, operands, hs.children, edgesOf_congr hr.varArgs]

theorem inRange (hs : Retarget node image) (hn : g.InRange node.children) :
    h.InRange image.children := by
  rw [hs.children]
  exact (inRange_congr hr.varArgs _).2 hn

theorem admits (hs : Retarget node image) (ha : g.admits node.kind node.payload = true) :
    h.admits image.kind image.payload = true := by
  rw [hs.kind]
  rcases hs.payload with hp | ⟨t, t', hp, hp'⟩
  · rwa [hp, admits_congr hr.size_branches hr.size_switches (by rw [hr.callLayouts])
      (by rw [hr.loadLayouts])]
  · rw [hp] at ha
    rw [hp']
    cases hk : node.kind <;> simp [hk, Graph.admits] at ha ⊢

theorem terminalNode? (b : BlockId) :
    (g.terminalNode? b = none ∧ h.terminalNode? b = none) ∨
    ∃ n node image, g.terminalNode? b = some (n, node) ∧ h.terminalNode? b = some (n, image) ∧
      Retarget node image := by
  cases ht : g.terminalNode? b with
  | none =>
    refine .inl ⟨rfl, ?_⟩
    by_contra hne
    obtain ⟨⟨n, image⟩, hsome⟩ := Option.ne_none_iff_exists'.1 hne
    obtain ⟨block, hb, hlast, hn, hterm⟩ := terminalNode?_eq_some_iff.1 hsome
    obtain ⟨node, hnode, hs⟩ := hr.node_of_some hn
    rw [hr.block?_eq] at hb
    have := terminalNode?_eq_some_iff.2 ⟨block, hb, hlast, hnode, hs.kind ▸ hterm⟩
    rw [ht] at this
    cases this
  | some e =>
    obtain ⟨n, node⟩ := e
    obtain ⟨block, hb, hlast, hnode, hterm⟩ := terminalNode?_eq_some_iff.1 ht
    obtain ⟨image, himage, hs⟩ := hr.node n node hnode
    refine .inr ⟨n, node, image, rfl, terminalNode?_eq_some_iff.2
      ⟨block, by rw [hr.block?_eq, hb], hlast, himage, by rw [hs.kind]; exact hterm⟩, hs⟩

theorem successorCount_eq (b : BlockId) : h.successorCount b = g.successorCount b := by
  rw [successorCount, successorCount]
  rcases hr.terminalNode? b with ⟨hg, hh⟩ | ⟨n, node, image, hg, hh, hs⟩
  · rw [hg, hh]
  · rw [hg, hh]
    simp only
    rcases hs.payload with hp | ⟨t, t', hp, hp'⟩
    · rw [hp]
      cases node.payload with
      | switch r => exact hr.slotCount r
      | _ => rfl
    · rw [hp, hp']
      rfl

/-- What a block runs is the same. -/
theorem blockImage (block : Block) : BlockImage g block h block id := by
  refine ⟨by simp, fun _ _ _ _ h => h, ?_⟩
  intro n hn node hnode
  obtain ⟨image, himage, hs⟩ := hr.node n node hnode
  refine ⟨image, himage, hs.kind, ?_, ?_, ?_, .inr fun i => ?_, .inr ?_⟩
  · rw [Node.slot?, Node.slot?]
    rcases hs.payload with hp | ⟨t, t', hp, hp'⟩
    · rw [hp]
    · rw [hp, hp']
      rfl
  · rw [Node.constant?, Node.constant?, hs.kind]
    rcases hs.payload with hp | ⟨t, t', hp, hp'⟩
    · rw [hp]
    · rw [hp, hp']
  · rcases hs.payload with hp | ⟨t, t', hp, hp'⟩
    · rw [hp]
      cases node.payload with
      | switch r => exact hr.switchValues r
      | _ => rfl
    · rw [hp, hp']
      rfl
  · rw [Node.child, Node.child, hs.children]
    simp
  · rw [hr.operands_eq hs]
    simp

/-- A block with the same successors has the same code. -/
theorem sameCode (hb : g.isLive b = true)
    (hsucc : ∀ i, h.successor? b i = g.successor? b i) : SameCode g h b := by
  obtain ⟨block, hblock⟩ := isLive_iff.1 hb
  exact ⟨⟨block, block, hblock, by rw [hr.block?_eq, hblock], hr.blockImage block, rfl⟩, hsucc⟩

theorem sharesRecord_iff : SharesRecord h c d ↔ SharesRecord g c d := by
  -- a payload that names a record is not retargeted
  have hbranch : ∀ {node image : Node} {r : Nat}, Retarget node image →
      (image.payload = .branch r ↔ node.payload = .branch r) := by
    intro node image r hs
    rcases hs.payload with hp | ⟨t, t', hp, hp'⟩
    · rw [hp]
    · rw [hp, hp']
      simp
  have hswitch : ∀ {node image : Node} {r : Nat}, Retarget node image →
      (image.payload = .switch r ↔ node.payload = .switch r) := by
    intro node image r hs
    rcases hs.payload with hp | ⟨t, t', hp, hp'⟩
    · rw [hp]
    · rw [hp, hp']
      simp
  rcases hr.terminalNode? c with ⟨hc, hc'⟩ | ⟨n, node, image, hc, hc', hs⟩
  · simp [SharesRecord, hc, hc']
  · rcases hr.terminalNode? d with ⟨hd, hd'⟩ | ⟨m, node', image', hd, hd', hs'⟩
    · simp [SharesRecord, hd, hd']
    · simp [SharesRecord, hc, hc', hd, hd', hbranch hs, hbranch hs', hswitch hs, hswitch hs']

theorem owned {first : BlockId} (ho : Owned first g) : Owned first h :=
  fun c d hfirst hne hs => ho c d hfirst hne (hr.sharesRecord_iff.1 hs)

theorem unlinked (hu : g.Unlinked) : h.Unlinked := by
  intro b block hb n hn image himage
  rw [hr.block?_eq] at hb
  obtain ⟨node, hnode, hs⟩ := hr.node_of_some himage
  rw [hr.operands_eq hs]
  exact hu b block hb n hn node hnode

theorem isPhi_eq (n : NodeId) : h.isPhi n = g.isPhi n := by
  cases hnode : g.node? n with
  | none =>
    have hnone : h.node? n = none := by
      rw [node?_eq_none_iff, hr.size_nodes, ← node?_eq_none_iff, hnode]
    simp [isPhi, hnode, hnone]
  | some node =>
    obtain ⟨image, himage, hs⟩ := hr.node n node hnode
    simp [isPhi, hnode, himage, hs.kind]

/-- A block is in order when its other targets are live. -/
theorem blockOk (hok : g.BlockOk b block)
    (hlive : ∀ slot < g.successorCount b, ∃ t, h.successor? b slot = some t ∧
      g.isLive t = true) : h.BlockOk b block := by
  refine
    { phis := fun n hn => by rw [hr.isPhi_eq]; exact hok.phis n hn
      nodes := fun n hn => by rw [hr.isPhi_eq]; exact hok.nodes n hn
      ne_nil := hok.ne_nil
      node := ?node
      phi := ?phi
      pad := hok.pad
      successor := ?successor }
  case node =>
    intro before n after hsplit image himage
    obtain ⟨node, hnode, hs⟩ := hr.node_of_some himage
    have hnodeOk := hok.node before n after hsplit node hnode
    refine ⟨by rw [hs.kind]; exact hnodeOk.terminal, hr.admits hs hnodeOk.admits,
      hr.inRange hs hnodeOk.inRange, ?_⟩
    rw [hr.operands_eq hs]
    exact hnodeOk.visible
  case phi =>
    intro n hn image himage
    obtain ⟨node, hnode, hs⟩ := hr.node_of_some himage
    have hphi := hok.phi n hn node hnode
    refine ⟨hr.inRange hs hphi.inRange, ?_⟩
    simp only [hr.operands_eq hs, hr.block?_eq]
    exact hphi.listed
  case successor =>
    intro slot hslot
    rw [hr.successorCount_eq] at hslot
    obtain ⟨t, ht, htlive⟩ := hlive slot hslot
    exact ⟨t, ht, by rw [hr.isLive_eq, htlive]⟩

theorem wellFormed (hw : g.WellFormed)
    (hlive : ∀ b, ∀ slot < g.successorCount b, ∃ t, h.successor? b slot = some t ∧
      g.isLive t = true) : h.WellFormed where
  entry_live := by rw [hr.isLive_eq, hw.entry_live]
  numbered := fun b block hb => hw.numbered b block (hr.block?_eq b ▸ hb)
  exists_node := by
    simp only [hr.block?_eq, hr.size_nodes]
    exact hw.exists_node
  nodup := by
    simp only [hr.block?_eq]
    exact hw.nodup
  apart := by
    simp only [hr.block?_eq]
    exact hw.apart
  block := by
    intro b block hb
    rw [hr.block?_eq] at hb
    exact hr.blockOk (hw.block b block hb) (hlive b)

/-- **Other targets** keep a graph sound when they are live. -/
theorem sound (hg : g.Sound)
    (hlive : ∀ b, ∀ slot < g.successorCount b, ∃ t, h.successor? b slot = some t ∧
      g.isLive t = true) : h.Sound := by
  refine
    { wellFormed := hr.wellFormed hg.wellFormed hlive
      pad := ?pad
      phi_use := ?phi_use
      snapshot := ?snapshot
      phi_operand := ?phi_operand }
  all_goals simp only [hr.block?_eq]
  case pad =>
    intro b block hb hpad
    obtain ⟨n, node, heq, hnode, hkind⟩ := hg.pad b block hb hpad
    obtain ⟨image, himage, hs⟩ := hr.node n node hnode
    exact ⟨n, image, heq, himage, hs.kind.trans hkind⟩
  case phi_use =>
    intro b block hb n hn image himage hget
    obtain ⟨node, hnode, hs⟩ := hr.node_of_some himage
    rw [hr.operands_eq hs]
    exact hg.phi_use b block hb n hn node hnode fun hk => hget (hs.kind.trans hk)
  case snapshot => exact hg.snapshot
  case phi_operand =>
    intro b block hb n hn image himage
    obtain ⟨node, hnode, hs⟩ := hr.node_of_some himage
    rw [hr.operands_eq hs]
    exact hg.phi_operand b block hb n hn node hnode

end Retargeted

/-! ## Pointing a slot at another block -/

/-- What pointing a slot of a block at another block does. -/
structure Redirected (g : Graph) (b : BlockId) (slot : Nat) (target : BlockId) (h : Graph) :
    Prop extends Retargeted g h where
  self : ∀ i, h.successor? b i = if i = slot then some target else g.successor? b i
  apart : ∀ d, d ≠ b → ¬ SharesRecord g b d → ∀ i, h.successor? d i = g.successor? d i

/-- The targets of a branch after pointing a slot elsewhere. -/
theorem target?_setTarget_branch (r : BranchRecord) {slot : Nat} (target : BlockId)
    (hslot : (r.target? slot).isSome = true) (i : Nat) :
    ((r.setTarget slot target).target? i).map Target.block =
      if i = slot then some target else (r.target? i).map Target.block := by
  match slot, i with
  | 0, 0 | 0, 1 | 1, 0 | 1, 1 | 0, j + 2 | 1, j + 2 =>
    simp [BranchRecord.setTarget, BranchRecord.target?]
  | k + 2, _ => simp [BranchRecord.target?] at hslot

/-- The targets of a switch after pointing a slot elsewhere. -/
theorem target?_setTarget_switch (r : SwitchRecord) {slot : Nat} (target : BlockId)
    (hslot : (r.target? slot).isSome = true) (i : Nat) :
    ((r.setTarget slot target).target? i).map Target.block =
      if i = slot then some target else (r.target? i).map Target.block := by
  have hle : slot ≤ r.cases.length := by
    rw [SwitchRecord.target?] at hslot
    split at hslot
    · rename_i hc
      exact Nat.le_of_lt (List.getElem?_eq_some_iff.1 hc).1
    · split at hslot
      · omega
      · cases hslot
  rw [SwitchRecord.setTarget]
  split
  case isTrue heq =>
    subst heq
    by_cases hi : i = r.cases.length
    · subst hi
      simp [SwitchRecord.target?]
    · rw [if_neg hi]
      simp only [SwitchRecord.target?]
      cases r.cases[i]? <;> simp [hi]
  case isFalse hne =>
    by_cases hi : i = slot
    · subst hi
      have hlt : i < r.cases.length := by omega
      simp [SwitchRecord.target?, hlt]
    · rw [if_neg hi]
      have hi' : ¬ slot = i := fun h => hi h.symm
      simp only [SwitchRecord.target?, List.getElem?_modify, hi', if_false, List.length_modify]
      cases r.cases[i]? <;> rfl

theorem terminalNode?_of_successor? (ht : g.successor? b slot = some t) :
    ∃ n node, g.terminalNode? b = some (n, node) ∧ g.slotTarget? node.payload slot = some t := by
  rw [successor?] at ht
  cases hterm : g.terminalNode? b with
  | none => simp [hterm] at ht
  | some e => exact ⟨e.1, e.2, rfl, by simpa [hterm] using ht⟩

/-- The slots of a live block are those that lead somewhere. -/
theorem WellFormed.slot_lt_iff (hw : g.WellFormed) (hb : g.isLive b = true) :
    slot < g.successorCount b ↔ ∃ t, g.successor? b slot = some t := by
  constructor
  · intro hslot
    obtain ⟨block, hblock⟩ := isLive_iff.1 hb
    obtain ⟨t, ht, _⟩ := (hw.block b block hblock).successor slot hslot
    exact ⟨t, ht⟩
  · rintro ⟨t, ht⟩
    exact slot_lt_of_successor? ht

theorem SameCode.successorCount_eq (hs : SameCode g h b) (hg : g.WellFormed) (hh : h.WellFormed)
    (hb : g.isLive b = true) : h.successorCount b = g.successorCount b := by
  refine Nat.le_antisymm ?_ ?_ <;> refine Nat.le_of_not_lt fun hlt => ?_
  · obtain ⟨t, ht⟩ := (hh.slot_lt_iff hs.isLive).1 hlt
    rw [hs.successor] at ht
    exact Nat.lt_irrefl _ (slot_lt_of_successor? ht)
  · obtain ⟨t, ht⟩ := (hg.slot_lt_iff hb).1 hlt
    rw [← hs.successor] at ht
    exact Nat.lt_irrefl _ (slot_lt_of_successor? ht)

/-- The terminal of a block ends no other block. -/
def OwnTerminal (g : Graph) (b : BlockId) : Prop :=
  ∀ d n node m other, d ≠ b → g.terminalNode? b = some (n, node) →
    g.terminalNode? d = some (m, other) → n ≠ m

theorem WellFormed.ownTerminal (hw : g.WellFormed) (b : BlockId) : g.OwnTerminal b := by
  rintro d n node m other hne hb hd rfl
  obtain ⟨block, hblock, hlast, _⟩ := terminalNode?_eq_some_iff.1 hb
  obtain ⟨block', hblock', hlast', _⟩ := terminalNode?_eq_some_iff.1 hd
  exact hne (hw.apart d block' b block n hblock' hblock
    (List.mem_append_right _ (List.mem_of_getLast? hlast'))
    (List.mem_append_right _ (List.mem_of_getLast? hlast)))

theorem successor?_modifyJump {t₀ : BlockId} (hterm : g.terminalNode? b = some (n, node))
    (hp : node.payload = .jump t₀) (target : BlockId) (i : Nat) :
    (g.modifyNode n fun node => { node with payload := .jump target }).successor? b i =
      if i = 0 then some target else g.successor? b i := by
  obtain ⟨block, hblock, hlast, hn, hkind⟩ := terminalNode?_eq_some_iff.1 hterm
  have hterm' : (g.modifyNode n fun node => { node with payload := .jump target }).terminalNode? b =
      some (n, { node with payload := .jump target }) :=
    terminalNode?_eq_some_iff.2 ⟨block, hblock, hlast, by simp [hn], hkind⟩
  rw [successor?, successor?, hterm, hterm']
  simp only [slotTarget?, hp]
  split <;> rfl

/-- Pointing a jump elsewhere. -/
theorem redirected_jump (hown : g.OwnTerminal b) {t₀ : BlockId}
    (hterm : g.terminalNode? b = some (n, node)) (hp : node.payload = .jump t₀) (target : BlockId) :
    Redirected g b 0 target (g.modifyNode n fun node => { node with payload := .jump target }) := by
  have hnode := (terminalNode?_eq_some_iff.1 hterm).choose_spec.2.2
  have hr : Retargeted g (g.modifyNode n fun node => { node with payload := .jump target }) := by
    refine ⟨rfl, rfl, rfl, rfl, rfl, rfl, rfl, by simp [modifyNode], ?_, fun _ => rfl, fun _ => rfl⟩
    intro m other hother
    by_cases hm : n = m
    · subst hm
      rw [hnode.1] at hother
      obtain rfl := Option.some.inj hother
      exact ⟨{ node with payload := .jump target }, by simp [hnode.1], rfl, rfl,
        .inr ⟨t₀, target, hp, rfl⟩⟩
    · exact ⟨other, by simp [hm, hother], .refl other⟩
  refine ⟨hr, successor?_modifyJump hterm hp target, ?_⟩
  intro d hd _ i
  rcases hr.terminalNode? d with ⟨h₁, h₂⟩ | ⟨m, other, image, h₁, h₂, _⟩
  · rw [successor?, successor?, h₁, h₂]
  · have hne := hown d n node m other hd hterm h₁
    obtain ⟨block, _, _, hother, _⟩ := terminalNode?_eq_some_iff.1 h₁
    obtain ⟨_, _, _, himage, _⟩ := terminalNode?_eq_some_iff.1 h₂
    rw [node?_modifyNode, if_neg hne, hother] at himage
    obtain rfl := Option.some.inj himage
    rw [successor?, successor?, h₁, h₂]
    exact slotTarget?_congr rfl rfl _ i

theorem successor?_eq_slotTarget? (hterm : g.terminalNode? b = some (n, node)) (i : Nat) :
    g.successor? b i = g.slotTarget? node.payload i := by
  rw [successor?, hterm]

/-- Pointing a slot of a branch elsewhere. -/
theorem redirected_branch {r : Nat} (hterm : g.terminalNode? b = some (n, node))
    (hp : node.payload = .branch r) (ht : g.slotTarget? node.payload slot = some t)
    (target : BlockId) :
    Redirected g b slot target
      { g with branches := g.branches.modify r fun data => data.setTarget slot target } := by
  rw [hp] at ht
  obtain ⟨data, hdata, hslot⟩ := Option.bind_eq_some_iff.1 ht
  have hslot : (data.target? slot).isSome = true := by
    obtain ⟨e, he, _⟩ := Option.map_eq_some_iff.1 hslot
    simp [he]
  obtain ⟨h, hh⟩ : ∃ h : Graph, h =
    { g with branches := g.branches.modify r fun data => data.setTarget slot target } := ⟨_, rfl⟩
  rw [← hh]
  have hterms : ∀ d, h.terminalNode? d = g.terminalNode? d := fun d => by rw [hh]; rfl
  refine ⟨?_, ?_, ?_⟩
  · subst hh
    exact ⟨rfl, rfl, rfl, by simp, rfl, rfl, rfl, rfl,
      fun n node hnode => ⟨node, hnode, .refl node⟩, fun _ => rfl, fun _ => rfl⟩
  · intro i
    rw [successor?_eq_slotTarget? ((hterms b).trans hterm), successor?_eq_slotTarget? hterm, hp, hh]
    simp only [slotTarget?, Array.getElem?_modify, if_pos, hdata, Option.map_some,
      Option.bind_eq_bind, Option.bind_some]
    exact target?_setTarget_branch data target hslot i
  · intro d _ hshare i
    cases hd : g.terminalNode? d with
    | none => rw [successor?, successor?, hterms, hd]
    | some f =>
      rw [successor?_eq_slotTarget? ((hterms d).trans hd), successor?_eq_slotTarget? hd]
      cases hf : f.2.payload with
      | branch r' =>
        have hne : r ≠ r' := by
          rintro rfl
          exact hshare ⟨_, f, r, hterm, hd, .inl ⟨hp, hf⟩⟩
        simp [hh, slotTarget?, Array.getElem?_modify, hne]
      | _ => rw [hh]; rfl

theorem values_setTarget (data : SwitchRecord) (slot : Nat) (target : BlockId) :
    (data.setTarget slot target).cases.map SwitchCase.value =
      data.cases.map SwitchCase.value := by
  rw [SwitchRecord.setTarget]
  split
  · rfl
  · refine List.ext_getElem? fun i => ?_
    simp only [List.getElem?_map, List.getElem?_modify]
    cases data.cases[i]? <;> by_cases hi : slot = i <;> simp [hi]

/-- Pointing a slot of a switch elsewhere. -/
theorem redirected_switch {r : Nat} (hterm : g.terminalNode? b = some (n, node))
    (hp : node.payload = .switch r) (ht : g.slotTarget? node.payload slot = some t)
    (target : BlockId) :
    Redirected g b slot target
      { g with switches := g.switches.modify r fun data => data.setTarget slot target } := by
  rw [hp] at ht
  obtain ⟨data, hdata, hslot⟩ := Option.bind_eq_some_iff.1 ht
  have hslot : (data.target? slot).isSome = true := by
    obtain ⟨e, he, _⟩ := Option.map_eq_some_iff.1 hslot
    simp [he]
  obtain ⟨h, hh⟩ : ∃ h : Graph, h =
    { g with switches := g.switches.modify r fun data => data.setTarget slot target } := ⟨_, rfl⟩
  rw [← hh]
  have hterms : ∀ d, h.terminalNode? d = g.terminalNode? d := fun d => by rw [hh]; rfl
  refine ⟨?_, ?_, ?_⟩
  · subst hh
    refine ⟨rfl, rfl, rfl, rfl, by simp, rfl, rfl, rfl,
      fun n node hnode => ⟨node, hnode, .refl node⟩, ?_, ?_⟩
    all_goals
      intro r'
      simp only [slotCount, switchValues, Array.getElem?_modify]
      by_cases hr : r = r'
      case neg => rw [if_neg hr]
      rw [if_pos hr]
      cases g.switches[r']? with
      | none => rfl
      | some data => ?_
    · have hlen := congrArg List.length (values_setTarget data slot target)
      simpa using hlen
    · exact congrArg some (values_setTarget data slot target)
  · intro i
    rw [successor?_eq_slotTarget? ((hterms b).trans hterm), successor?_eq_slotTarget? hterm, hp, hh]
    simp only [slotTarget?, Array.getElem?_modify, if_pos, hdata, Option.map_some,
      Option.bind_eq_bind, Option.bind_some]
    exact target?_setTarget_switch data target hslot i
  · intro d _ hshare i
    cases hd : g.terminalNode? d with
    | none => rw [successor?, successor?, hterms, hd]
    | some f =>
      rw [successor?_eq_slotTarget? ((hterms d).trans hd), successor?_eq_slotTarget? hd]
      cases hf : f.2.payload with
      | switch r' =>
        have hne : r ≠ r' := by
          rintro rfl
          exact hshare ⟨_, f, r, hterm, hd, .inr ⟨hp, hf⟩⟩
        simp [hh, slotTarget?, Array.getElem?_modify, hne]
      | _ => rw [hh]; rfl

/-- **Pointing a slot at another block** succeeds when the slot exists, in any graph where the block
has a terminal of its own. -/
theorem setSuccessor_of_ownTerminal (hown : g.OwnTerminal b) (ht : g.successor? b slot = some t)
    (target : BlockId) :
    ∃ h, g.setSuccessor b slot target = .ok h ∧ Redirected g b slot target h := by
  obtain ⟨n, node, hterm, htarget⟩ := terminalNode?_of_successor? ht
  simp only [setSuccessor, hterm, htarget, Option.isNone_some, Bool.false_eq_true, if_false]
  cases hp : node.payload with
  | branch r => exact ⟨_, rfl, redirected_branch hterm hp htarget target⟩
  | switch r => exact ⟨_, rfl, redirected_switch hterm hp htarget target⟩
  | jump t₀ =>
    obtain rfl : slot = 0 := by
      by_contra hne
      simp [hp, slotTarget?, hne] at htarget
    exact ⟨_, rfl, redirected_jump hown hterm hp target⟩
  | _ => simp [hp, slotTarget?] at htarget

theorem setSuccessor_ok (hw : g.WellFormed) (ht : g.successor? b slot = some t)
    (target : BlockId) :
    ∃ h, g.setSuccessor b slot target = .ok h ∧ Redirected g b slot target h :=
  setSuccessor_of_ownTerminal (hw.ownTerminal b) ht target

/-- Every block is left alone, shares the record, or is the one whose slot was set. -/
theorem Redirected.successor?_eq {target : BlockId} (hr : Redirected g b slot target h)
    (d : BlockId) (i : Nat) :
    h.successor? d i = g.successor? d i ∨
      ((d = b ∨ SharesRecord g b d) ∧ i = slot ∧ h.successor? d i = some target ∧
        g.successor? d i = g.successor? b i) := by
  by_cases hd : d = b
  · subst hd
    rw [hr.self]
    by_cases hi : i = slot
    · exact .inr ⟨.inl rfl, hi, by simp [hi], rfl⟩
    · exact .inl (by simp [hi])
  · by_cases hs : SharesRecord g b d
    · have hs' := (hr.toRetargeted.sharesRecord_iff).2 hs
      rw [hs'.successor?_eq, hr.self, hs.successor?_eq]
      by_cases hi : i = slot
      · exact .inr ⟨.inr hs, hi, by simp [hi], rfl⟩
      · exact .inl (by simp [hi])
    · exact .inl (hr.apart d hd hs i)

theorem Redirected.sound {target : BlockId} (hr : Redirected g b slot target h) (hg : g.Sound)
    (hlive : g.isLive target = true) : h.Sound := by
  refine hr.toRetargeted.sound hg ?_
  intro d i hi
  rcases hr.successor?_eq d i with heq | ⟨_, _, heq, _⟩
  · have hdlive : g.isLive d = true := by
      by_contra hdead
      have hnone : g.block? d = none := by simpa [isLive] using hdead
      simp [successorCount, terminalNode?, hnone] at hi
    obtain ⟨block, hblock⟩ := isLive_iff.1 hdlive
    obtain ⟨t, ht, htlive⟩ := (hg.wellFormed.block d block hblock).successor i hi
    exact ⟨t, heq.trans ht, htlive⟩
  · exact ⟨target, heq, hlive⟩

end Unroller.Graph
