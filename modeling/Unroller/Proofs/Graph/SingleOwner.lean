import Unroller.Proofs.Graph.Ownership
import Unroller.Proofs.Graph.Threading

/-!
# Records with a single owner

A node names a record by its position, so two nodes could name one record; then an edit of the one
would reach the other.  No operation on a graph lets that happen, even where it leaves the graph
invalid, or fails midway.

* `SingleOwner`: no two nodes that live blocks run hold one record.
* `Proper`: a node that copying can follow: it and what it uses, up to phis, go with their records.
* `Separate`: what keeps records apart; valid graphs with single owners are separate.
* `Develops`: a later state of a graph, as far as its nodes are concerned.
* `Separate.of_develops`: a later state stays separate if the nodes it runs in addition are new and
  hold no record that was held.
* `Sustains`: what every operation does; edits of blocks that add nothing are of this sort.
-/

namespace Unroller

/-- The record that a payload names, by its sort and its position. -/
def Payload.handle? : Payload → Option (RecordShape × Nat)
  | .branch r => some (.branchTargets, r)
  | .switch r => some (.switchTable, r)
  | .callVarargs r => some (.callVarargs, r)
  | .loadVarargs r => some (.loadVarargs, r)
  | _ => none

namespace Graph

variable {g h k : Graph} {b c d : BlockId} {m n : NodeId} {node image : Node} {block : Block}
  {r : RecordShape × Nat}

/-! ## Who holds what -/

/-- The nodes that live blocks run and that hold a record, with that record. -/
def handles (g : Graph) : List (NodeId × (RecordShape × Nat)) :=
  g.liveBlocks.flatMap fun e => e.2.nodes.filterMap fun n =>
    ((g.node? n).bind fun node => node.payload.handle?).map fun r => (n, r)

/-- No two nodes that live blocks run hold one record. -/
def SingleOwner (g : Graph) : Prop :=
  ∀ e ∈ g.handles, ∀ f ∈ g.handles, e.2 = f.2 → e.1 = f.1

instance (g : Graph) : Decidable g.SingleOwner :=
  inferInstanceAs (Decidable (∀ e ∈ g.handles, ∀ f ∈ g.handles, e.2 = f.2 → e.1 = f.1))

/-- A block runs a node. -/
def Runs (g : Graph) (b : BlockId) (n : NodeId) : Prop :=
  ∃ block, g.block? b = some block ∧ n ∈ block.nodes

/-- A block has a phi. -/
def HasPhi (g : Graph) (b : BlockId) (n : NodeId) : Prop :=
  ∃ block, g.block? b = some block ∧ n ∈ block.phis

/-- A node holds a record. -/
def Holds (g : Graph) (n : NodeId) (r : RecordShape × Nat) : Prop :=
  ∃ node, g.node? n = some node ∧ node.payload.handle? = some r

theorem mem_handles : (n, r) ∈ g.handles ↔ (∃ b, g.Runs b n) ∧ g.Holds n r := by
  simp only [handles, List.mem_flatMap, List.mem_filterMap, Option.map_eq_some_iff,
    Option.bind_eq_some_iff]
  constructor
  · rintro ⟨⟨b, block⟩, hb, m, hm, r', ⟨node, hnode, hr⟩, heq⟩
    cases heq
    exact ⟨⟨b, block, mem_liveBlocks.1 hb, hm⟩, node, hnode, hr⟩
  · rintro ⟨⟨b, block, hb, hn⟩, node, hnode, hr⟩
    exact ⟨(b, block), mem_liveBlocks.2 hb, n, hn, r, ⟨node, hnode, hr⟩, rfl⟩

theorem singleOwner_iff : g.SingleOwner ↔
    ∀ b c m n r, g.Runs b m → g.Runs c n → g.Holds m r → g.Holds n r → m = n := by
  constructor
  · intro ho b c m n r hm hn hmr hnr
    exact ho (m, r) (mem_handles.2 ⟨⟨b, hm⟩, hmr⟩) (n, r) (mem_handles.2 ⟨⟨c, hn⟩, hnr⟩) rfl
  · rintro ho ⟨m, r⟩ he ⟨n, r'⟩ hf rfl
    obtain ⟨⟨b, hm⟩, hmr⟩ := mem_handles.1 he
    obtain ⟨⟨c, hn⟩, hnr⟩ := mem_handles.1 hf
    exact ho b c m n r hm hn hmr hnr

theorem holds_iff (hnode : g.node? n = some node) :
    g.Holds n r ↔ node.payload.handle? = some r := by
  simp [Holds, hnode]

theorem not_holds_of_bare (hnode : g.node? n = some node) (hbare : node.payload.handle? = none) :
    ¬ g.Holds n r := by
  rw [holds_iff hnode, hbare]
  exact fun h => by cases h

/-! ## Records that exist -/

/-- The number of records of a sort. -/
def arenaSize (g : Graph) : RecordShape → Nat
  | .branchTargets => g.branches.size
  | .switchTable => g.switches.size
  | .callVarargs => g.callLayouts.size
  | .loadVarargs => g.loadLayouts.size

theorem lt_arenaSize_of_admits {kind : Kind} {p : Payload} (ha : g.admits kind p = true)
    (hr : p.handle? = some r) : r.2 < g.arenaSize r.1 := by
  cases p <;> simp only [Payload.handle?, Option.some.injEq, reduceCtorEq] at hr
  all_goals
    subst hr
    cases kind <;> simp only [admits, decide_eq_true_eq, Bool.false_eq_true] at ha
    all_goals exact ha

/-! ## Proper nodes -/

/-- A node that goes with the record it names, if it names one, and whose operands exist. -/
structure WellMade (g : Graph) (node : Node) : Prop where
  admits : node.payload.handle?.isSome = true → g.admits node.kind node.payload = true
  inRange : g.InRange node.children

/-- A phi, or a well-made node whose operands are again such nodes, and so on. -/
def Proper (g : Graph) (n : NodeId) : Prop :=
  ∃ among : NodeId → Prop, among n ∧ ∀ m, among m → ∃ node, g.node? m = some node ∧
    (node.kind = .phi ∨ g.WellMade node ∧ ∀ c ∈ g.operands node, among c)

theorem Proper.unfold (hn : g.Proper n) : ∃ node, g.node? n = some node ∧
    (node.kind = .phi ∨ g.WellMade node ∧ ∀ c ∈ g.operands node, g.Proper c) := by
  obtain ⟨among, hmem, hstep⟩ := hn
  obtain ⟨node, hnode, hcase⟩ := hstep n hmem
  refine ⟨node, hnode, hcase.imp_right fun hmade => ⟨hmade.1, fun c hc => ?_⟩⟩
  exact ⟨among, hmade.2 c hc, hstep⟩

theorem Proper.cases (hn : g.Proper n) (hnode : g.node? n = some node) :
    node.kind = .phi ∨ g.WellMade node ∧ ∀ c ∈ g.operands node, g.Proper c := by
  obtain ⟨other, hother, hcase⟩ := hn.unfold
  rw [hnode] at hother
  obtain rfl := Option.some.inj hother
  exact hcase

theorem proper_of_operands (hnode : g.node? n = some node) (hmade : g.WellMade node)
    (hoperands : ∀ c ∈ g.operands node, g.Proper c) : g.Proper n := by
  refine ⟨fun m => m = n ∨ g.Proper m, .inl rfl, ?_⟩
  rintro m (rfl | hm)
  · exact ⟨node, hnode, .inr ⟨hmade, fun c hc => .inr (hoperands c hc)⟩⟩
  · obtain ⟨other, hother, hcase⟩ := hm.unfold
    exact ⟨other, hother, hcase.imp_right fun h => ⟨h.1, fun c hc => .inr (h.2 c hc)⟩⟩

theorem isPhi_iff : g.isPhi n = true ↔ ∃ node, g.node? n = some node ∧ node.kind = .phi := by
  cases hnode : g.node? n <;> simp [isPhi, hnode]

theorem kind_of_isPhi (hn : g.isPhi n = true) (hnode : g.node? n = some node) :
    node.kind = .phi := by
  simpa [isPhi, hnode] using hn

theorem proper_of_isPhi (hn : g.isPhi n = true) : g.Proper n := by
  obtain ⟨node, hnode, hkind⟩ := isPhi_iff.1 hn
  refine ⟨fun m => m = n, rfl, ?_⟩
  rintro m rfl
  exact ⟨node, hnode, .inl hkind⟩

/-! ## Separate graphs -/

/-- Blocks run nodes of their own, which are proper and hold records of their own. -/
structure Separate (g : Graph) : Prop where
  phi : ∀ b n, g.HasPhi b n → g.isPhi n = true
  notPhi : ∀ b n, g.Runs b n → g.isPhi n = false
  proper : ∀ b n, g.Runs b n → g.Proper n
  apart : ∀ b c n, g.Runs b n → g.Runs c n → b = c
  owner : g.SingleOwner

/-- **A valid graph** whose records have single owners is separate. -/
theorem WellFormed.separate (hw : g.WellFormed) (ho : g.SingleOwner) : g.Separate where
  phi := by
    rintro b n ⟨block, hb, hn⟩
    exact (hw.block b block hb).phis n hn
  notPhi := by
    rintro b n ⟨block, hb, hn⟩
    exact (hw.block b block hb).nodes n hn
  proper := by
    rintro b n ⟨block, hb, hn⟩
    -- what a listed node uses is listed in the same block
    refine ⟨fun m => m ∈ block.phis ++ block.nodes, List.mem_append_right _ hn, ?_⟩
    intro m hm
    obtain ⟨node, hnode⟩ := exists_node? (hw.exists_node b block hb m hm)
    refine ⟨node, hnode, ?_⟩
    rcases List.mem_append.1 hm with hphi | hm
    · exact .inl (kind_of_isPhi ((hw.block b block hb).phis m hphi) hnode)
    · obtain ⟨before, after, hsplit⟩ := List.append_of_mem hm
      have hok := (hw.block b block hb).node before m after hsplit node hnode
      refine .inr ⟨⟨fun _ => hok.admits, hok.inRange⟩, fun c hc => ?_⟩
      rcases hok.visible c hc with hbefore | hphi
      · exact List.mem_append_right _ (by simp [hsplit, hbefore])
      · exact List.mem_append_left _ hphi
  apart := by
    rintro b c n ⟨block, hb, hn⟩ ⟨other, hc, hn'⟩
    exact hw.apart b block c other n hb hc (List.mem_append_right _ hn)
      (List.mem_append_right _ hn')
  owner := ho

namespace Separate

variable (hg : g.Separate)

include hg

theorem wellMade (hn : g.Runs b n) (hnode : g.node? n = some node) :
    g.WellMade node ∧ ∀ c ∈ g.operands node, g.Proper c := by
  have hkind : node.kind ≠ .phi := fun hkind => by
    have := hg.notPhi b n hn
    simp [isPhi, hnode, hkind] at this
  exact ((hg.proper b n hn).cases hnode).resolve_left hkind

theorem lt_size (hn : g.Runs b n) : n < g.nodes.size := by
  obtain ⟨node, hnode, _⟩ := (hg.proper b n hn).unfold
  exact lt_size_of_node? hnode

/-- What is held exists. -/
theorem lt_arenaSize (hn : g.Runs b n) (hr : g.Holds n r) : r.2 < g.arenaSize r.1 := by
  obtain ⟨node, hnode, hhandle⟩ := hr
  exact lt_arenaSize_of_admits ((hg.wellMade hn hnode).1.admits (by simp [hhandle])) hhandle

end Separate

/-! ## Later states of a graph -/

/-- What a node may have become: it keeps its kind, and its record if it still names one; unless it
is a phi, other operands than before were proper nodes or are such now. -/
structure Later (g h : Graph) (node image : Node) : Prop where
  kind : image.kind = node.kind
  payload : image.payload = node.payload ∨ image.payload.handle? = none
  children : node.kind = .phi ∨ image.children = node.children ∨
    h.InRange image.children ∧ ∀ c ∈ h.operands image, g.Proper c ∨ h.Proper c

theorem Later.refl (g h : Graph) (node : Node) : Later g h node node :=
  ⟨rfl, .inl rfl, .inr (.inl rfl)⟩

/-- No position is lost, and every node is what it was, or has become later. -/
structure Develops (g h : Graph) : Prop where
  roomier : Roomier g h
  varArgs : Extends g.varArgs h.varArgs
  node : ∀ n node, g.node? n = some node → ∃ image, h.node? n = some image ∧ Later g h node image

namespace Develops

theorem of_grows (hg : Grows g h) : Develops g h :=
  ⟨hg.roomier, hg.varArgs, fun _ node hnode => ⟨node, hg.node?_of_some hnode, .refl g h node⟩⟩

theorem refl (g : Graph) : Develops g g := of_grows (.refl g)

/-- Changing one node. -/
theorem of_modifyNode {change : Node → Node}
    (hchange : ∀ node, g.node? n = some node → Later g (g.modifyNode n change) node (change node)) :
    Develops g (g.modifyNode n change) := by
  refine ⟨⟨by simp [modifyNode], le_rfl, le_rfl, le_rfl, le_rfl⟩, .refl _, ?_⟩
  intro m node hnode
  by_cases hm : n = m
  · subst hm
    exact ⟨change node, by simp [hnode], hchange node hnode⟩
  · exact ⟨node, by simp [hm, hnode], .refl _ _ node⟩

variable (hd : Develops g h)

include hd

theorem isPhi (hn : g.isPhi n = true) : h.isPhi n = true := by
  obtain ⟨node, hnode, hkind⟩ := isPhi_iff.1 hn
  obtain ⟨image, himage, hlater⟩ := hd.node n node hnode
  exact isPhi_iff.2 ⟨image, himage, hlater.kind.trans hkind⟩

/-- **Proper nodes stay proper.** -/
theorem proper (hn : g.Proper n) : h.Proper n := by
  refine ⟨fun m => g.Proper m ∨ h.Proper m, .inl hn, ?_⟩
  rintro m (hm | hm)
  · obtain ⟨node, hnode, hcase⟩ := hm.unfold
    obtain ⟨image, himage, hlater⟩ := hd.node m node hnode
    refine ⟨image, himage, ?_⟩
    rcases hcase with hphi | ⟨hmade, hoperands⟩
    · exact .inl (hlater.kind.trans hphi)
    have hadmits : image.payload.handle?.isSome = true →
        h.admits image.kind image.payload = true := by
      intro hsome
      rcases hlater.payload with hp | hp
      · rw [hlater.kind, hp]
        exact hd.roomier.admits (hmade.admits (hp ▸ hsome))
      · simp [hp] at hsome
    rcases hlater.children with hphi | hsame | ⟨hrange, hproper⟩
    · exact .inl (hlater.kind.trans hphi)
    · refine .inr ⟨⟨hadmits, hsame ▸ inRange_of_extends hd.varArgs hmade.inRange⟩, fun c hc => ?_⟩
      rw [operands, hsame, edgesOf_of_extends hd.varArgs hmade.inRange] at hc
      exact .inl (hoperands c hc)
    · exact .inr ⟨⟨hadmits, hrange⟩, hproper⟩
  · obtain ⟨node, hnode, hcase⟩ := hm.unfold
    exact ⟨node, hnode, hcase.imp_right fun h => ⟨h.1, fun c hc => .inr (h.2 c hc)⟩⟩

theorem isPhi_eq (hn : g.Proper n) : h.isPhi n = g.isPhi n := by
  obtain ⟨node, hnode, _⟩ := hn.unfold
  obtain ⟨image, himage, hlater⟩ := hd.node n node hnode
  simp [Graph.isPhi, hnode, himage, hlater.kind]

/-- A node holds no record that it did not hold. -/
theorem holds (hn : g.Proper n) (hr : h.Holds n r) : g.Holds n r := by
  obtain ⟨node, hnode, _⟩ := hn.unfold
  obtain ⟨image, himage, hlater⟩ := hd.node n node hnode
  rw [holds_iff himage] at hr
  rcases hlater.payload with hp | hp
  · exact ⟨node, hnode, hp ▸ hr⟩
  · rw [hp] at hr
    cases hr

end Develops

theorem Later.trans {last : Node} (hlater : Later g h node image) (hd' : Develops h k)
    (hlater' : Later h k image last) : Later g k node last := by
  refine ⟨hlater'.kind.trans hlater.kind, ?_, ?_⟩
  · rcases hlater'.payload with hp | hp
    · rw [hp]
      exact hlater.payload
    · exact .inr hp
  · rcases hlater'.children with hphi | hsame | ⟨hrange, hproper⟩
    · exact .inl (hlater.kind ▸ hphi)
    · rcases hlater.children with hphi | hsame' | ⟨hrange, hproper⟩
      · exact .inl hphi
      · exact .inr (.inl (hsame.trans hsame'))
      · refine .inr (.inr ⟨hsame ▸ inRange_of_extends hd'.varArgs hrange, fun c hc => ?_⟩)
        rw [operands, hsame, edgesOf_of_extends hd'.varArgs hrange] at hc
        exact (hproper c hc).imp_right hd'.proper
    · exact .inr (.inr ⟨hrange, fun c hc => .inr ((hproper c hc).elim hd'.proper id)⟩)

theorem Develops.trans (hd : Develops g h) (hd' : Develops h k) : Develops g k := by
  refine ⟨hd.roomier.trans hd'.roomier, hd.varArgs.trans hd'.varArgs, ?_⟩
  intro n node hnode
  obtain ⟨image, himage, hlater⟩ := hd.node n node hnode
  obtain ⟨last, hlast, hlater'⟩ := hd'.node n image himage
  exact ⟨last, hlast, hlater.trans hd' hlater'⟩

/-- A new node of `h`, fit to be run, that holds no record which was held in `g`. -/
structure Fresh (g h : Graph) (n : NodeId) : Prop where
  new : g.nodes.size ≤ n
  notPhi : h.isPhi n = false
  proper : h.Proper n
  unheld : ∀ r, h.Holds n r → ∀ b m, g.Runs b m → ¬ g.Holds m r

theorem Fresh.not_runs (hf : Fresh g h n) (hg : g.Separate) : ¬ g.Runs b n :=
  fun hn => Nat.not_lt.2 hf.new (hg.lt_size hn)

/-- **A later state stays separate** if blocks run what they ran, and one of them fresh nodes as
well, no two of which hold one record. -/
theorem Separate.of_develops (hg : g.Separate) (hd : Develops g h) (c : BlockId)
    (hphis : ∀ b n, h.HasPhi b n → g.HasPhi b n ∨ h.isPhi n = true)
    (hruns : ∀ b n, h.Runs b n → g.Runs b n ∨ b = c ∧ Fresh g h n)
    (hone : ∀ m n r, h.Runs c m → h.Runs c n → Fresh g h m → Fresh g h n → h.Holds m r →
      h.Holds n r → m = n) : h.Separate where
  phi := by
    intro b n hn
    rcases hphis b n hn with hold | hnew
    · exact hd.isPhi (hg.phi b n hold)
    · exact hnew
  notPhi := by
    intro b n hn
    rcases hruns b n hn with hold | ⟨_, hnew⟩
    · rw [hd.isPhi_eq (hg.proper b n hold)]
      exact hg.notPhi b n hold
    · exact hnew.notPhi
  proper := by
    intro b n hn
    rcases hruns b n hn with hold | ⟨_, hnew⟩
    · exact hd.proper (hg.proper b n hold)
    · exact hnew.proper
  apart := by
    intro b d n hb hd'
    rcases hruns b n hb with hold | ⟨rfl, hnew⟩ <;> rcases hruns d n hd' with hold' | ⟨rfl, hnew'⟩
    · exact hg.apart b d n hold hold'
    · exact absurd hold (hnew'.not_runs hg)
    · exact absurd hold' (hnew.not_runs hg)
    · rfl
  owner := by
    rw [singleOwner_iff]
    intro b d m n r hm hn hmr hnr
    rcases hruns b m hm with hold | ⟨rfl, hnew⟩ <;> rcases hruns d n hn with hold' | ⟨rfl, hnew'⟩
    · exact singleOwner_iff.1 hg.owner b d m n r hold hold' (hd.holds (hg.proper b m hold) hmr)
        (hd.holds (hg.proper d n hold') hnr)
    · exact absurd (hd.holds (hg.proper b m hold) hmr) (hnew'.unheld r hnr b m hold)
    · exact absurd (hd.holds (hg.proper d n hold') hnr) (hnew.unheld r hmr d n hold')
    · exact hone m n r hm hn hnew hnew' hmr hnr

/-! ## What operations do -/

/-- A separate graph stays separate, and proper nodes stay proper. -/
def Sustains (g h : Graph) : Prop := g.Separate → Develops g h ∧ h.Separate

namespace Sustains

theorem refl (g : Graph) : Sustains g g := fun hg => ⟨.refl g, hg⟩

theorem trans (h₁ : Sustains g h) (h₂ : Sustains h k) : Sustains g k := by
  intro hg
  obtain ⟨hd, hh⟩ := h₁ hg
  obtain ⟨hd', hk⟩ := h₂ hh
  exact ⟨hd.trans hd', hk⟩

/-- Blocks run at most what they ran. -/
theorem of_runs (hd : Develops g h)
    (hphis : ∀ b n, h.HasPhi b n → g.HasPhi b n ∨ h.isPhi n = true)
    (hruns : ∀ b n, h.Runs b n → g.Runs b n) : Sustains g h := by
  intro hg
  refine ⟨hd, hg.of_develops hd 0 hphis (fun b n hn => .inl (hruns b n hn)) ?_⟩
  intro m n r hm _ hfresh
  exact absurd (hruns 0 m hm) (hfresh.not_runs hg)

/-- Blocks are what they were. -/
theorem of_blocks (hd : Develops g h) (hblocks : h.blocks = g.blocks) : Sustains g h := by
  have hblock : ∀ b, h.block? b = g.block? b := fun b => by rw [block?, block?, hblocks]
  refine of_runs hd (fun b n hn => .inl ?_) fun b n hn => ?_
  · rwa [HasPhi, hblock] at hn
  · rwa [Runs, hblock] at hn

/-- Only blocks have changed, and have at most the phis and run at most the nodes that they had and
ran. -/
theorem of_grows (hgrows : Grows g h)
    (hblock : ∀ b block, h.block? b = some block → block.phis = [] ∧ block.nodes = [] ∨
      ∃ old, g.block? b = some old ∧ block.phis ⊆ old.phis ∧ block.nodes ⊆ old.nodes) :
    Sustains g h := by
  refine of_runs (.of_grows hgrows) ?_ ?_
  · rintro b n ⟨block, hb, hn⟩
    rcases hblock b block hb with ⟨hnil, _⟩ | ⟨old, hold, hphis, _⟩
    · simp [hnil] at hn
    · exact .inl ⟨old, hold, hphis hn⟩
  · rintro b n ⟨block, hb, hn⟩
    rcases hblock b block hb with ⟨_, hnil⟩ | ⟨old, hold, _, hnodes⟩
    · simp [hnil] at hn
    · exact ⟨old, hold, hnodes hn⟩

/-- Changing a block, without giving it phis or nodes. -/
theorem of_modifyBlock {change : Block → Block}
    (hchange : ∀ block, (change block).phis ⊆ block.phis ∧ (change block).nodes ⊆ block.nodes) :
    Sustains g (g.modifyBlock b change) := by
  refine of_grows (.of_eq rfl rfl rfl rfl rfl rfl rfl) fun d block hd => .inr ?_
  rw [block?_modifyBlock] at hd
  split at hd
  · obtain ⟨old, hold, rfl⟩ := Option.map_eq_some_iff.1 hd
    exact ⟨old, hold, hchange old⟩
  · exact ⟨block, hd, List.Subset.refl _, List.Subset.refl _⟩

end Sustains

end Graph

end Unroller
