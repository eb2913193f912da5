import Mathlib.Tactic
import Unroller.Proofs.Cloning.Isomorphism
import Unroller.Proofs.Cloning.Sustaining

/-!
# Copying only appends

Whether it succeeds or fails midway, the copying of a block leaves everything in a valid graph as it
was.  Copies are edited after they were made: nodes are put into them, the hook may do with them
what it wants, and slots are set in the records that their last nodes name.  So it has to be known
of every copy at every moment that what belongs to it was not there before.

* `Hook.EditsOnlyCopy`: however the hook ends, it has edited at most the copy it was given.
* `Appends`: a graph with more behind it; `Apart`: one whose further blocks own nothing from before.
* `Apart.trans`: stretches of work add up; `Apart.edit`, `apart_withNode`, `apart_of_blockAdded`:
  the steps of copying keep it so.
* `Adds`: a part of the work keeps it so, however it ends.
* `adds_nodeFrom`, `adds_fill`: nodes and blocks of a graph, copied in one that has been appended to
  before; `adds_blockFrom`: blocks with what they lead to.
* `LoopShape.editsOnlyCopy_stitch`: the hook that unrolling uses is such a hook.
-/

namespace Unroller

open Unroller.Graph

/-- However a call of the hook ends, it has edited at most the copy it was given. -/
def Hook.EditsOnlyCopy (hook : Hook) : Prop :=
  ∀ b c k, k.Closed → EditsOnly k c (finalState (hook b c k))

namespace Graph

variable {g h k : Graph} {b c d : BlockId} {n : NodeId} {node : Node} {block : Block} {p : Payload}
  {i : Nat}

/-! ## Graphs with more behind them -/

/-- Blocks, nodes, variadic operands and records have been appended and none has changed; the blocks
appended list nodes appended. -/
structure Appends (g h : Graph) : Prop extends Grows g h where
  same : SameFunction g h
  blocks : Extends g.blocks h.blocks
  added : ∀ c n, g.blocks.size ≤ c → h.Lists c n → g.nodes.size ≤ n ∧ n < h.nodes.size

/-- No two of the blocks appended share a node, and neither their records nor their variadic
operands were there before. -/
structure Apart (g h : Graph) : Prop extends Appends g h where
  lists : ∀ c d n, g.blocks.size ≤ c → g.blocks.size ≤ d → h.Lists c n → h.Lists d n → c = d
  names : ∀ c p, g.blocks.size ≤ c → h.Names c p →
    g.record? p = none ∧ ∃ r, h.record? p = some r
  spans : ∀ c i, g.blocks.size ≤ c → h.Spans c i → g.varArgs.size ≤ i

theorem Lists.lt_size (hn : g.Lists b n) : b < g.blocks.size := by
  obtain ⟨block, hb, _⟩ := hn
  exact lt_size_of_block? hb

theorem Names.exists_lists (hp : g.Names b p) : ∃ n, g.Lists b n := by
  obtain ⟨_, block, hb, n, hn, _⟩ := hp
  exact ⟨n, block, hb, List.mem_append_right _ hn⟩

theorem getElem?_blocks (hb : b < g.blocks.size) : g.blocks[b]? = some (g.block? b) := by
  rw [block?, Array.getD_eq_getD_getElem?, Array.getElem?_eq_getElem hb]
  rfl

theorem extends_blocks (hsize : g.blocks.size ≤ h.blocks.size)
    (hblock : ∀ d < g.blocks.size, h.block? d = g.block? d) : Extends g.blocks h.blocks := by
  refine ⟨hsize, fun d hd => ?_⟩
  rw [getElem?_blocks (hd.trans_le hsize), getElem?_blocks hd, hblock d hd]

namespace Apart

theorem refl (g : Graph) : Apart g g := by
  have hnone : ∀ c n, g.blocks.size ≤ c → ¬ g.Lists c n := fun c n hc hn =>
    Nat.not_lt.2 hc hn.lt_size
  refine ⟨⟨.refl g, .refl g, .refl _, fun c n hc hn => absurd hn (hnone c n hc)⟩,
    fun c d n hc _ hn _ => absurd hn (hnone c n hc), fun c p hc hp => ?_, fun c i hc hi => ?_⟩
  · obtain ⟨n, hn⟩ := hp.exists_lists
    exact absurd hn (hnone c n hc)
  · obtain ⟨n, hn, _⟩ := hi
    exact absurd hn (hnone c n hc)

variable (ha : Apart g h)

include ha

theorem block?_eq (hd : d < g.blocks.size) : h.block? d = g.block? d := by
  rw [block?_eq_getElem?, block?_eq_getElem?, ha.blocks.getElem? d hd]

theorem keeps (hd : d < g.blocks.size) : Keeps g h d := ha.toGrows.keeps (ha.block?_eq hd)

theorem closed (hw : g.WellFormed) : h.Closed := by
  refine ⟨fun d n hn => ?_, fun d p hp => ?_⟩
  · rcases lt_or_ge d g.blocks.size with hd | hd
    · exact (hw.closed.node d n ((ha.keeps hd).lists_iff.1 hn)).trans_le ha.nodes.size_le
    · exact (ha.added d n hd hn).2
  · rcases lt_or_ge d g.blocks.size with hd | hd
    · obtain ⟨r, hr⟩ := hw.closed.record d p (((ha.keeps hd).names_iff hw.closed).1 hp)
      exact ⟨r, ha.record?_of_some hr⟩
    · exact (ha.names d p hd hp).2

omit ha in
/-- One stretch of work after another. -/
theorem trans_of_closed (hc : h.Closed) (hgh : Apart g h) (hhk : Apart h k) : Apart g k := by
  have hadded : ∀ c n, g.blocks.size ≤ c → k.Lists c n →
      (c < h.blocks.size ∧ h.Lists c n) ∨ h.blocks.size ≤ c ∧ h.nodes.size ≤ n := by
    intro c n _ hn
    rcases lt_or_ge c h.blocks.size with hlt | hle
    · exact .inl ⟨hlt, (hhk.keeps hlt).lists_iff.1 hn⟩
    · exact .inr ⟨hle, (hhk.added c n hle hn).1⟩
  refine ⟨⟨hgh.toGrows.trans hhk.toGrows, hgh.same.trans hhk.same, hgh.blocks.trans hhk.blocks, ?_⟩,
    ?_, ?_, ?_⟩
  · intro c n hle hn
    rcases hadded c n hle hn with ⟨_, hold⟩ | ⟨hle', _⟩
    · obtain ⟨hfirst, hlast⟩ := hgh.added c n hle hold
      exact ⟨hfirst, hlast.trans_le hhk.nodes.size_le⟩
    · obtain ⟨hfirst, hlast⟩ := hhk.added c n hle' hn
      exact ⟨hgh.nodes.size_le.trans hfirst, hlast⟩
  · intro c d n hc hd hcn hdn
    rcases hadded c n hc hcn with ⟨_, hcn'⟩ | ⟨hc', hn⟩ <;>
      rcases hadded d n hd hdn with ⟨_, hdn'⟩ | ⟨hd', hn'⟩
    · exact hgh.lists c d n hc hd hcn' hdn'
    · exact absurd (hgh.added c n hc hcn').2 (Nat.not_lt.2 hn')
    · exact absurd (hgh.added d n hd hdn').2 (Nat.not_lt.2 hn)
    · exact hhk.lists c d n hc' hd' hcn hdn
  · intro c p hle hp
    rcases lt_or_ge c h.blocks.size with hlt | hle'
    · obtain ⟨hnone, r, hr⟩ := hgh.names c p hle (((hhk.keeps hlt).names_iff hc).1 hp)
      exact ⟨hnone, r, hhk.record?_of_some hr⟩
    · obtain ⟨hnone, hr⟩ := hhk.names c p hle' hp
      exact ⟨hgh.roomier.record?_of_none hnone, hr⟩
  · intro c i hle hi
    rcases lt_or_ge c h.blocks.size with hlt | hle'
    · exact hgh.spans c i hle ((hhk.keeps hlt).spans hc hi)
    · exact hgh.varArgs.size_le.trans (hhk.spans c i hle' hi)

omit ha in
theorem trans (hw : g.WellFormed) (hgh : Apart g h) (hhk : Apart h k) : Apart g k :=
  trans_of_closed (hgh.closed hw) hgh hhk

/-! ## Edits of further blocks -/

section Touch

variable (hc : g.blocks.size ≤ c) (ht : Touches h c k)

include hc ht

theorem grows_of_touches : Grows g k := by
  have hrecord : ∀ p r, g.record? p = some r → k.record? p = some r := by
    intro p r hr
    refine ht.record p (fun hp => ?_) r (ha.record?_of_some hr)
    rw [(ha.names c p hc hp).1] at hr
    cases hr
  refine
    { nodes := ?nodes
      varArgs := ?varArgs
      branches := ?branches
      switches := ?switches
      callLayouts := ?callLayouts
      loadLayouts := ?loadLayouts
      form := ht.same.form.trans ha.form }
  case nodes =>
    refine ⟨ha.nodes.size_le.trans ht.roomier.nodes, fun n hn => ?_⟩
    have hnot : ¬ h.Lists c n := fun hcn => Nat.not_lt.2 (ha.added c n hc hcn).1 hn
    exact (ht.node n (hn.trans_le ha.nodes.size_le) hnot).trans (ha.nodes.getElem? n hn)
  case varArgs =>
    refine ⟨ha.varArgs.size_le.trans ht.size_args, fun i hi => ?_⟩
    have hnot : ¬ h.Spans c i := fun hci => Nat.not_lt.2 (ha.spans c i hc hci) hi
    rw [ht.arg i (hi.trans_le ha.varArgs.size_le) hnot, ha.varArgs.getElem? i hi]
  case branches =>
    exact Extends.of_getElem? fun i x hx => by
      simpa [record?] using hrecord (.branch i) (.branch x) (by simp [record?, hx])
  case switches =>
    exact Extends.of_getElem? fun i x hx => by
      simpa [record?] using hrecord (.switch i) (.switch x) (by simp [record?, hx])
  case callLayouts =>
    exact Extends.of_getElem? fun i x hx => by
      simpa [record?] using hrecord (.callVarargs i) (.callVarargs x) (by simp [record?, hx])
  case loadLayouts =>
    exact Extends.of_getElem? fun i x hx => by
      simpa [record?] using hrecord (.loadVarargs i) (.loadVarargs x) (by simp [record?, hx])

/-- The other blocks list what they did, and their nodes are what they were. -/
theorem lists_of_touches (hd : g.blocks.size ≤ d) (hdc : d ≠ c) (hn : k.Lists d n) :
    h.Lists d n ∧ k.node? n = h.node? n := by
  obtain ⟨block, hb, hn⟩ := hn
  rw [ht.block d hdc] at hb
  have hlists : h.Lists d n := ⟨block, hb, hn⟩
  exact ⟨hlists, ht.node n (ha.added d n hd hlists).2 fun hcn =>
    hdc (ha.lists d c n hd hc hlists hcn)⟩

theorem names_of_touches (hd : g.blocks.size ≤ d) (hdc : d ≠ c) (hp : k.Names d p) :
    h.Names d p := by
  obtain ⟨hrecord, block, hb, n, hn, node, hnode, rfl⟩ := hp
  have hsame := (ha.lists_of_touches hc ht hd hdc ⟨block, hb, List.mem_append_right _ hn⟩).2
  rw [ht.block d hdc] at hb
  exact ⟨hrecord, block, hb, n, hn, node, hsame ▸ hnode, rfl⟩

theorem spans_of_touches (hd : g.blocks.size ≤ d) (hdc : d ≠ c) (hi : k.Spans d i) :
    h.Spans d i := by
  obtain ⟨n, hn, node, first, count, hnode, hrange⟩ := hi
  obtain ⟨hlists, hsame⟩ := ha.lists_of_touches hc ht hd hdc hn
  exact ⟨n, hlists, node, first, count, hsame ▸ hnode, hrange⟩

theorem appends_of_touches : Appends g k := by
  refine ⟨ha.grows_of_touches hc ht, ha.same.trans ht.same, ?_, ?_⟩
  · refine extends_blocks (ht.size_blocks ▸ ha.blocks.size_le) fun d hd => ?_
    rw [ht.block d (Nat.ne_of_lt (hd.trans_le hc)), ha.block?_eq hd]
  · intro d n hd hn
    have hkept : h.Lists d n → g.nodes.size ≤ n ∧ n < k.nodes.size := fun hold =>
      ⟨(ha.added d n hd hold).1, (ha.added d n hd hold).2.trans_le ht.roomier.nodes⟩
    by_cases hdc : d = c
    · subst hdc
      rcases ht.lists n hn with hold | ⟨hle, hlt⟩
      · exact hkept hold
      · exact ⟨ha.nodes.size_le.trans hle, hlt⟩
    · exact hkept (ha.lists_of_touches hc ht hd hdc hn).1

/-- What the block lists, no other further block does. -/
theorem not_lists_of_touches (hd : g.blocks.size ≤ d) (hdc : d ≠ c) (hn : k.Lists d n) :
    ¬ k.Lists c n := by
  intro hcn
  have hold := (ha.lists_of_touches hc ht hd hdc hn).1
  rcases ht.lists n hcn with hcn | ⟨hle, _⟩
  · exact hdc (ha.lists d c n hd hc hold hcn)
  · exact Nat.not_lt.2 hle (ha.added d n hd hold).2

/-- A further block may be changed as long as it comes to own nothing from before. -/
theorem touch
    (hnames : ∀ p, k.Names c p → h.Names c p ∨ g.record? p = none ∧ ∃ r, k.record? p = some r)
    (hspans : ∀ i, k.Spans c i → h.Spans c i ∨ g.varArgs.size ≤ i) : Apart g k := by
  refine ⟨ha.appends_of_touches hc ht, ?_, ?_, ?_⟩
  · intro d e n hd he hdn hen
    by_cases hdc : d = c
    · by_contra hne
      exact ha.not_lists_of_touches hc ht he (fun hec => hne (hdc.trans hec.symm)) hen (hdc ▸ hdn)
    · by_cases hec : e = c
      · exact absurd (hec ▸ hen) (ha.not_lists_of_touches hc ht hd hdc hdn)
      · exact ha.lists d e n hd he (ha.lists_of_touches hc ht hd hdc hdn).1
          (ha.lists_of_touches hc ht he hec hen).1
  · intro d p hd hp
    have hkept : h.Names d p → g.record? p = none ∧ ∃ r, k.record? p = some r := by
      intro hold
      obtain ⟨hnone, r, hr⟩ := ha.names d p hd hold
      exact ⟨hnone, ht.roomier.exists_record? hr⟩
    by_cases hdc : d = c
    · subst hdc
      exact (hnames p hp).elim hkept id
    · exact hkept (ha.names_of_touches hc ht hd hdc hp)
  · intro d i hd hi
    by_cases hdc : d = c
    · subst hdc
      exact (hspans i hi).elim (ha.spans d i hd) id
    · exact ha.spans d i hd (ha.spans_of_touches hc ht hd hdc hi)

end Touch

/-- **An edit of one of the further blocks** reaches nothing that was there before. -/
theorem edit (hc : g.blocks.size ≤ c) (he : EditsOnly h c k) : Apart g k :=
  ha.touch hc he.toTouches
    (fun p hp => (he.names p hp).imp_right fun hnew =>
      ⟨ha.roomier.record?_of_none hnew.1, hnew.2⟩)
    (fun i hi => (he.spans i hi).imp_right ha.varArgs.size_le.trans)

/-- Where blocks list what they did, the rest may grow. -/
theorem grow (hg : Grows h k) (hs : SameFunction h k) (hb : Extends h.blocks k.blocks)
    (hlists : ∀ d n, k.Lists d n → h.Lists d n)
    (hnames : ∀ d p, k.Names d p → h.Names d p) : Apart g k := by
  refine ⟨⟨ha.toGrows.trans hg, ha.same.trans hs, ha.blocks.trans hb, fun d n hd hn => ?_⟩,
    fun d e n hd he hdn hen => ha.lists d e n hd he (hlists d n hdn) (hlists e n hen),
    fun d p hd hp => ?_, fun d i hd hi => ?_⟩
  · obtain ⟨hle, hlt⟩ := ha.added d n hd (hlists d n hn)
    exact ⟨hle, hlt.trans_le hg.nodes.size_le⟩
  · obtain ⟨hnone, r, hr⟩ := ha.names d p hd (hnames d p hp)
    exact ⟨hnone, r, hg.record?_of_some hr⟩
  · obtain ⟨n, hn, node, first, count, hnode, hrange⟩ := hi
    have hold := hlists d n hn
    rw [node?, hg.nodes.getElem? n (ha.added d n hd hold).2] at hnode
    exact ha.spans d i hd ⟨n, hold, node, first, count, hnode, hrange⟩

/-- Records and operands that belong to no block yet. -/
theorem grow_rest (hg : Grows h k) (hs : SameFunction h k) (hblocks : k.blocks = h.blocks)
    (hnodes : k.nodes = h.nodes) : Apart g k := by
  have hblock : ∀ d, k.block? d = h.block? d := fun d => by rw [block?, block?, hblocks]
  have hnode : ∀ n, k.node? n = h.node? n := fun n => by rw [node?, node?, hnodes]
  refine ha.grow hg hs (hblocks ▸ .refl _) (fun d n hn => ?_) fun d p hp => ?_
  · rw [Lists, hblock] at hn
    exact hn
  · simp only [Names, hblock, hnode] at hp
    exact hp

end Apart

end Graph

namespace Cloning

variable {α : Type} {g h k : Graph} {hook : Hook} {b c d target : BlockId} {n : NodeId}
  {node : Node}
  {block : Block} {s s₀ s' : Session} {fuel : Nat} {list : NodeId → Block → Block}

/-! ## The steps of copying -/

/-- A new node that a block comes to list touches only that block. -/
theorem touches_withNode
    (hlist : ∀ m block, ∀ n ∈ (list m block).phis ++ (list m block).nodes,
      n ∈ block.phis ++ block.nodes ∨ n = m) : Touches h c (withNode h c list node) := by
  have hgrows := grows_withNode h c list node
  refine ⟨⟨rfl, rfl, rfl, rfl, rfl, rfl⟩, hgrows.roomier, size_blocks_withNode h c list node,
    le_rfl,
    fun d hd => by rw [block?_withNode, if_neg hd.symm], fun n hn _ => hgrows.nodes.getElem? n hn,
    fun i hi _ => hgrows.varArgs.getElem? i hi, fun p _ r => hgrows.record?_of_some, ?_⟩
  rintro n ⟨block, hb, hn⟩
  rw [block?_withNode, if_pos rfl] at hb
  obtain ⟨old, hold, rfl⟩ := Option.map_eq_some_iff.1 hb
  refine (hlist _ old n hn).imp (fun hn => ⟨old, hold, hn⟩) ?_
  rintro rfl
  exact ⟨le_rfl, by rw [nodes_withNode, Array.size_push]; exact Nat.lt_succ_self _⟩

/-- **A new node** in one of the further blocks, with a record and operands that were not there
before. -/
theorem apart_withNode (ha : Apart g h) (hc : g.blocks.size ≤ c)
    (hlist : ∀ m block, ∀ n ∈ (list m block).phis ++ (list m block).nodes,
      n ∈ block.phis ++ block.nodes ∨ n = m)
    (hnodes : ∀ m block, ∀ n ∈ (list m block).nodes, n ∈ block.nodes ∨
      n = m ∧ (node.payload.isRecord = true →
        g.record? node.payload = none ∧ ∃ r, h.record? node.payload = some r))
    (hchildren : ∀ first count, node.children = .variadic first count → g.varArgs.size ≤ first) :
    Apart g (withNode h c list node) := by
  have hgrows := grows_withNode h c list node
  have htouches : Touches h c (withNode h c list node) := touches_withNode hlist
  have hself := node?_withNode_self h c list node
  have hold : ∀ n, h.Lists c n → (withNode h c list node).node? n = h.node? n := fun n hn =>
    hgrows.nodes.getElem? n (ha.added c n hc hn).2
  refine ha.touch hc htouches ?_ ?_
  · rintro p ⟨hp, block, hb, n, hn, image, himage, rfl⟩
    rw [block?_withNode, if_pos rfl] at hb
    obtain ⟨old, hold', rfl⟩ := Option.map_eq_some_iff.1 hb
    rcases hnodes _ old n hn with hn | ⟨rfl, hfresh⟩
    · rw [hold n ⟨old, hold', List.mem_append_right _ hn⟩] at himage
      exact .inl ⟨hp, old, hold', n, hn, image, himage, rfl⟩
    · rw [hself] at himage
      obtain rfl := Option.some.inj himage
      obtain ⟨hnone, r, hr⟩ := hfresh hp
      exact .inr ⟨hnone, r, hgrows.record?_of_some hr⟩
  · rintro i ⟨n, hn, image, first, count, himage, hrange, hi⟩
    rcases htouches.lists n hn with hn | ⟨hle, hlt⟩
    · rw [hold n hn] at himage
      exact .inl ⟨n, hn, image, first, count, himage, hrange, hi⟩
    · rw [nodes_withNode, Array.size_push] at hlt
      obtain rfl : n = h.nodes.size := Nat.le_antisymm (Nat.le_of_lt_succ hlt) hle
      rw [hself] at himage
      obtain rfl := Option.some.inj himage
      exact .inr ((hchildren first count hrange).trans hi.1)

theorem apart_addRecord (ha : Apart g h) (r : Record) : Apart g (addRecord h r).2 := by
  have hmore := moreRecords_addRecord h r
  refine ha.grow_rest hmore.toGrows ?_ hmore.blocks_eq hmore.nodes_eq
  cases r <;> exact ⟨rfl, rfl, rfl, rfl, rfl, rfl⟩

theorem apart_withArgs (ha : Apart g h) (args : Array Edge) : Apart g (withArgs h args) :=
  ha.grow_rest (grows_withArgs h args) ⟨rfl, rfl, rfl, rfl, rfl, rfl⟩ rfl rfl

/-- **A new block**, which lists nothing yet. -/
theorem apart_of_blockAdded (ha : Apart g s.graph) (hb : BlockAdded s b block s₀) :
    Apart g s₀.graph := by
  obtain ⟨new, _, hphis, hnodes, _, _, hblock⟩ := hb.block?
  have hnode : ∀ n, s₀.graph.node? n = s.graph.node? n := hb.node?_eq
  refine ha.grow hb.grows ?_ ?_ ?_ ?_
  · rw [hb.rest]
    exact ⟨rfl, rfl, rfl, rfl, rfl, rfl⟩
  · refine extends_blocks (by rw [hb.size_blocks]; exact Nat.le_succ _) fun d hd => ?_
    rw [hblock, if_neg (Nat.ne_of_lt hd)]
  · rintro d n ⟨other, hother, hn⟩
    rw [hblock] at hother
    split at hother
    · obtain rfl := Option.some.inj hother
      simp [hphis, hnodes] at hn
    · exact ⟨other, hother, hn⟩
  · rintro d p ⟨hp, other, hother, n, hn, node, hnode', hpayload⟩
    rw [hblock] at hother
    split at hother
    · obtain rfl := Option.some.inj hother
      simp [hnodes] at hn
    · exact ⟨hp, other, hother, n, hn, node, hnode n ▸ hnode', hpayload⟩

theorem editsOnly_modifyBlock {change : Block → Block}
    (hphis : ∀ block, (change block).phis = block.phis)
    (hnodes : ∀ block, (change block).nodes = block.nodes) :
    EditsOnly h c (h.modifyBlock c change) := by
  have hold : ∀ other, (h.modifyBlock c change).block? c = some other →
      ∃ block, h.block? c = some block ∧ other.phis = block.phis ∧ other.nodes = block.nodes := by
    intro other hother
    rw [block?_modifyBlock, if_pos rfl] at hother
    obtain ⟨block, hb, rfl⟩ := Option.map_eq_some_iff.1 hother
    exact ⟨block, hb, hphis block, hnodes block⟩
  have hlists : ∀ n, (h.modifyBlock c change).Lists c n → h.Lists c n := by
    rintro n ⟨other, hother, hn⟩
    obtain ⟨block, hb, hp, hq⟩ := hold other hother
    exact ⟨block, hb, by rwa [hp, hq] at hn⟩
  refine ⟨⟨⟨rfl, rfl, rfl, rfl, rfl, rfl⟩, ⟨le_rfl, le_rfl, le_rfl, le_rfl, le_rfl⟩,
    size_blocks_modifyBlock h c change, le_rfl,
    fun d hd => by rw [block?_modifyBlock, if_neg hd.symm], fun _ _ _ => rfl, fun _ _ _ => rfl,
    fun _ _ _ hr => hr, fun n hn => .inl (hlists n hn)⟩, ?_, ?_⟩
  · rintro p ⟨hp, other, hother, n, hn, node, hnode, hpayload⟩
    obtain ⟨block, hb, _, hq⟩ := hold other hother
    exact .inl ⟨hp, block, hb, n, hq ▸ hn, node, hnode, hpayload⟩
  · rintro i ⟨n, hn, node, first, count, hnode, hrange⟩
    exact .inl ⟨n, hlists n hn, node, first, count, hnode, hrange⟩

/-! ## Parts of the work -/

/-- However a part of the work ends, it has only appended to `g`. -/
def Adds (g : Graph) (x : Cloning α) (s : Session) : Prop :=
  Ends (fun _ t => Apart g t.graph) (fun _ t => Apart g t.graph) x s

namespace Adds

variable {β : Type}

theorem forM {items : List α} {f : α → Cloning PUnit} (ha : Apart g s.graph)
    (hf : ∀ i ∈ items, ∀ t : Session, Apart g t.graph → Adds g (f i) t) :
    Adds g (items.forM f) s :=
  Ends.forM (I := fun t : Session => Apart g t.graph) ha hf

theorem foldlM {items : List α} {f : β → α → Cloning β} (ha : Apart g s.graph)
    (hf : ∀ acc i (t : Session), Apart g t.graph → Adds g (f acc i) t) (acc : β) :
    Adds g (items.foldlM f acc) s :=
  Ends.foldlM (I := fun t : Session => Apart g t.graph) ha hf acc

theorem final {x : Cloning α} (hx : Adds g x s) : Apart g (finalState (x s)).graph :=
  Ends.final (I := fun t : Session => Apart g t.graph) hx

end Adds

theorem adds_tryGraph {ε : Type} {wrap : ε → Error} {change : Graph → Except ε (α × Graph)}
    (ha : Apart g s.graph) (hchange : ∀ a k, change s.graph = .ok (a, k) → Apart g k) :
    Adds g (tryGraph wrap change) s := by
  cases hrun : change s.graph with
  | error e => exact .of_error (e := wrap e) (by simp [tryGraph, hrun]) ha
  | ok result =>
    refine .of_ok (a := result.1) (t := onto s result.2) ?_ (hchange result.1 result.2 hrun)
    simp only [tryGraph, hrun]
    rfl

/-! ### Nodes -/

section Nodes

variable {copy : NodeId → Cloning NodeId}

/-- The operands of a copy stand with the node, or in a range that was not there before. -/
theorem ends_children (ha : Apart g s.graph) {c : Children}
    (hcopy : ∀ e ∈ s.graph.edgesOf c, ∀ n, e.node? = some n → ∀ t : Session, Apart g t.graph →
      Adds g (copy n) t) :
    Ends (fun c' t => Apart g t.graph ∧
        ∀ first count, c' = .variadic first count → g.varArgs.size ≤ first)
      (fun _ t => Apart g t.graph) (children copy c) s := by
  have hoperands := ends_operands (I := fun t => Apart g t.graph) ha hcopy
    fun t args ht => apart_withArgs ht args
  refine hoperands.mono (fun c' t hc => ⟨hc.1, fun first count heq => ?_⟩) fun _ _ => id
  obtain ⟨u, hu, rfl⟩ := hc.2 first count heq
  exact hu.varArgs.size_le

/-- The record of a copy was not there before. -/
theorem ends_payload (ha : Apart g s.graph) (hadmits : g.admits node.kind node.payload = true)
    (hs : node.kind.cloneStrategy ≠ .unsupported) :
    Ends (fun p t => Apart g t.graph ∧
        (p.isRecord = true → g.record? p = none ∧ ∃ r, t.graph.record? p = some r))
      (fun _ t => Apart g t.graph) (payload n node) s := by
  have hadmits' := ha.admits hadmits
  by_cases hspecial : ∃ shape, node.kind.cloneStrategy = .special shape
  · obtain ⟨shape, hshape⟩ := hspecial
    unfold payload
    simp only [hshape]
    rcases record_cases n shape node.payload s with ⟨r, hr, hok⟩ | ⟨e, herror⟩
    · refine .of_ok hok ⟨apart_addRecord ha r, fun hp => ⟨?_, ?_⟩⟩
      · exact ha.roomier.record?_of_none (payloadCopy_addRecord hr).record?_eq_none
      · exact exists_record?_of_admits (admits_addRecord hadmits' hr) hp
    · exact .of_error herror ha
  · have hplain : ∀ shape, node.kind.cloneStrategy ≠ .special shape := fun shape hshape =>
      hspecial ⟨shape, hshape⟩
    refine .of_ok (payload_shared hplain n s) ⟨ha, fun hp => ?_⟩
    obtain ⟨shape, hshape⟩ := Option.isSome_iff_exists.1 hp
    exact absurd ((strategy_of_admits hadmits hs shape).2 hshape) (hplain shape)

end Nodes

/-- A node with operands and a record that were not there before. -/
theorem adds_appendNode (ha : Apart g s.graph) (htarget : g.blocks.size ≤ target) (node : Node)
    (hchildren : ∀ first count, node.children = .variadic first count → g.varArgs.size ≤ first)
    (hpayload : node.payload.isRecord = true →
      g.record? node.payload = none ∧ ∃ r, s.graph.record? node.payload = some r) :
    Adds g (tryGraph .defect (·.appendNode target node)) s := by
  refine adds_tryGraph ha fun m k hrun => ?_
  cases appendNode_eq_ok hrun
  refine apart_withNode ha htarget (by simp [listNode, or_assoc]) ?_ hchildren
  intro m other x hx
  rcases List.mem_append.1 hx with hx | hx
  · exact .inl hx
  · exact .inr ⟨List.mem_singleton.1 hx, hpayload⟩

/-- A phi. -/
theorem adds_phi (ha : Apart g s.graph) (htarget : g.blocks.size ≤ target) (n : NodeId) :
    Adds g (phi target n) s := by
  unfold phi
  refine .get ?_
  split
  · exact .of_error rfl ha
  · rename_i node hnode
    have happend : Adds g (tryGraph .defect
        (·.appendPhi target { node with children := .none })) s := by
      refine adds_tryGraph ha fun m k hrun => ?_
      cases appendPhi_eq_ok hrun
      refine apart_withNode ha htarget ?_ (fun m other x hx => .inl hx) ?_
      · intro m other x hx
        simp only [listPhi, List.mem_append, List.mem_singleton] at hx ⊢
        tauto
      · rintro first count ⟨⟩
    exact happend.bind fun copy v hv => .of_ok rfl hv

theorem adds_snapshot (ha : Apart g s.graph) (source : BlockId) (operands : Snapshot) :
    Adds g (snapshot source operands) s := by
  unfold snapshot
  refine .foldlM ha (fun acc e t ht => .get ?_) _
  split
  · exact .of_ok rfl ht
  · exact .of_error rfl ht

theorem adds_setSuccessor (ha : Apart g s.graph) (htarget : g.blocks.size ≤ target) (slot : Nat)
    (t : BlockId) : Adds g
      (tryGraph .violation fun g => (g.setSuccessor target slot t).map fun g => ((), g)) s := by
  refine adds_tryGraph ha fun _ k hrun => ?_
  cases hset : s.graph.setSuccessor target slot t with
  | error e => simp [hset, Except.map] at hrun
  | ok k' =>
    simp only [hset, Except.map, Except.ok.injEq, Prod.mk.injEq, true_and] at hrun
    subst hrun
    exact ha.edit htarget (editsOnly_setSuccessor hset).1

section Run

variable (hw : g.WellFormed) (hgk : Apart g k)

include hw hgk

/-- **Nodes** that blocks of the graph list, copied when the graph has come to be `k`. -/
theorem adds_nodeFrom (ha : Apart k s.graph) (htarget : k.blocks.size ≤ target)
    (hn : ∃ d, g.Lists d n) (fuel : Nat) : Adds k (nodeFrom target fuel n) s := by
  induction fuel generalizing s n with
  | zero => exact .of_error rfl ha
  | succ fuel ih =>
    have hsince := hgk.trans hw ha
    obtain ⟨d, block, hb, hmem⟩ := hn
    obtain ⟨node, hnode⟩ := exists_node? (hw.exists_node d block hb n hmem)
    have hnode' := hsince.node?_of_some hnode
    cases hcopied : s.nodeCopies.lookup n with
    | some copy => exact .of_ok (nodeFrom_of_copied hcopied) ha
    | none =>
      by_cases hphi : node.kind = .phi
      · exact .of_error (nodeFrom_of_phi hcopied hnode' hphi) ha
      by_cases hstrategy : node.kind.cloneStrategy = .unsupported
      · exact .of_error (nodeFrom_of_unsupported hcopied hnode' hstrategy) ha
      have hmem' : n ∈ block.nodes := (List.mem_append.1 hmem).resolve_left fun hp =>
        hphi (hw.kind_eq_phi hb hp hnode)
      obtain ⟨before, after, hsplit⟩ := List.append_of_mem hmem'
      have hok := (hw.block d block hb).node before n after hsplit node hnode
      have hoperands : ∀ e ∈ s.graph.edgesOf node.children, ∀ m, e.node? = some m →
          ∃ d, g.Lists d m := by
        intro e he m hm
        rw [hsince.edgesOf_eq hok.inRange] at he
        exact ⟨d, block, hb, hw.operand_mem hb hmem' hnode (List.mem_filterMap.2 ⟨e, he, hm⟩)⟩
      refine .congr (nodeFrom_eq fuel hcopied hnode' hphi hstrategy) ?_
      refine (ends_children ha fun e he m hm t ht => ih ht (hoperands e he m hm)).bind
        fun c t hchildren => ?_
      obtain ⟨ht, hc⟩ := hchildren
      refine (ends_payload ht (hgk.admits hok.admits) hstrategy).bind fun p u hpayload => ?_
      obtain ⟨hu, hp⟩ := hpayload
      exact (adds_appendNode hu htarget { node with children := c, payload := p } hc hp).bind
        fun copy v hv => .of_ok rfl hv

theorem adds_node (ha : Apart k s.graph) (htarget : k.blocks.size ≤ target)
    (hn : ∃ d, g.Lists d n) : Adds k (Cloning.node target n) s := by
  unfold Cloning.node
  exact .get (adds_nodeFrom hw hgk ha htarget hn _)

/-- **Filling a copy** of a block of the graph. -/
theorem adds_fill (ha : Apart k s.graph) (htarget : k.blocks.size ≤ target)
    (hb : g.block? b = some block) : Adds k (fill b target block) s := by
  unfold fill
  refine (Adds.forM ha fun n _ t ht => adds_phi ht htarget n).bind fun _ t ht => ?_
  have hnode : ∀ n ∈ block.nodes, ∀ u : Session, Apart k u.graph →
      Adds k (do discard (Cloning.node target n)) u := by
    intro n hn u hu
    exact (adds_node hw hgk hu htarget ⟨b, block, hb, List.mem_append_right _ hn⟩).bind
      fun _ v hv => .of_ok rfl hv
  refine (Adds.forM ht hnode).bind fun _ u hu => ?_
  refine (adds_snapshot hu b block.head).bind fun head v hv => ?_
  refine (adds_snapshot hv b block.tail).bind fun tail w hw' => ?_
  refine .of_ok rfl (hw'.edit htarget ?_)
  exact editsOnly_modifyBlock (fun _ => rfl) fun _ => rfl

/-! ### Blocks -/

/-- A block of the graph still leads where it did, to blocks of the graph. -/
theorem successor_lt_size {slot : Nat} (hb : g.block? b = some block)
    (hsucc : k.successor? b slot = some d) : d < g.blocks.size := by
  rw [(hgk.keeps (lt_size_of_block? hb)).successor?_eq hw.closed] at hsucc
  obtain ⟨d', hd', hlive⟩ := (hw.block b block hb).successor slot (slot_lt_of_successor? hsucc)
  obtain rfl := Option.some.inj (hd'.symm.trans hsucc)
  obtain ⟨other, hother⟩ := isLive_iff.1 hlive
  exact lt_size_of_block? hother

variable (hhook : hook.EditsOnlyCopy)

include hhook

theorem adds_offer (ha : Apart k s.graph) (htarget : k.blocks.size ≤ target) (source : BlockId) :
    Adds k (offer hook source target) s := by
  have hedits := hhook source target s.graph ((hgk.trans hw ha).closed hw)
  cases hrun : hook source target s.graph with
  | ok handled k =>
    rw [hrun] at hedits
    exact .of_ok (a := handled)
      (t := { s with graph := k, offered := s.offered ++ [(source, target)] })
      (by simp only [offer, hrun]) (ha.edit htarget hedits)
  | error e k =>
    rw [hrun] at hedits
    exact .of_error (e := e)
      (t := { s with graph := k, offered := s.offered ++ [(source, target)] })
      (by simp only [offer, hrun]) (ha.edit htarget hedits)

omit hgk in
/-- **Blocks of the graph** and what they lead to, by induction on how deep the work goes. -/
theorem adds_blockFrom (ha : Apart g s.graph)
    (hb : ∀ block, s.graph.block? b = some block → b < g.blocks.size) (fuel : Nat) :
    Adds g (blockFrom hook fuel b) s := by
  induction fuel generalizing s b with
  | zero => exact .of_error rfl ha
  | succ fuel ih =>
    unfold blockFrom
    refine .get ?_
    split
    · exact .of_ok rfl ha
    refine .get ?_
    split
    · exact .of_error rfl ha
    rename_i block hblock
    have hlt := hb block hblock
    rw [ha.block?_eq hlt] at hblock
    obtain ⟨s₀, hadded, hnew⟩ := freshBlock_ok b block s
    refine .bind_ok hadded ?_
    have htarget := ha.blocks.size_le
    refine (adds_fill hw (.refl g) (apart_of_blockAdded ha hnew) htarget hblock).bind
      fun _ t ht => ?_
    refine (adds_offer hw (.refl g) hhook ht htarget b).bind fun handled u hu => ?_
    cases handled with
    | true => exact .of_ok rfl hu
    | false =>
      have hslots : Adds g (successors (blockFrom hook fuel) b s.graph.blocks.size) u := by
        unfold successors
        refine .get (Adds.forM hu fun slot _ v hv => .get ?_)
        split
        · exact .of_error rfl hv
        rename_i successor hsucc
        refine (ih hv fun _ _ => successor_lt_size hw hv hblock hsucc).bind fun copy w hw' => ?_
        exact adds_setSuccessor hw' htarget slot copy
      exact hslots.bind fun _ v hv => .of_ok rfl hv

end Run

/-- **Copying only appends.**  In a session with a valid graph, whatever it has copied before, the
copying of a block, with a hook that edits at most the copy it is given, leaves every block, node,
variadic operand and record there was as it is, and the name, form and kept analyses of the graph;
the blocks added list nodes added.  This is so whether the copying succeeds or fails. -/
theorem block_appends {reach : Nat} (hvalid : s.graph.validate = .ok ())
    (hhook : hook.EditsOnlyCopy) :
    Appends s.graph (finalState (Cloning.block hook b reach s)).graph := by
  have hw := validate_eq_ok_iff.1 hvalid
  have hadds : Adds s.graph (Cloning.block hook b reach) s := by
    unfold Cloning.block
    exact .get (adds_blockFrom hw hhook (.refl _) (fun _ => lt_size_of_block?) _)
  exact hadds.final.toAppends

end Cloning

/-! ## The hook of a loop -/

section Stitch

open Cloning

/-- The hook that unrolling uses edits nothing but the copy of the tail, even where it fails after
the first of two edits. -/
theorem LoopShape.editsOnlyCopy_stitch (shape : LoopShape) (following : BlockId) :
    (shape.stitch following).EditsOnlyCopy := by
  intro b c k _
  have hset : ∀ slot t g, EditsOnly k c g → ∀ h, g.setSuccessor c slot t = .ok h →
      EditsOnly k c h := fun _ _ _ he _ hok => he.trans (editsOnly_setSuccessor hok).1
  suffices hends : Ends (fun _ => EditsOnly k c) (fun _ => EditsOnly k c)
      (shape.stitch following b c) k from hends.final
  unfold LoopShape.stitch
  split
  case isFalse => exact .of_ok rfl (.refl k c)
  case isTrue =>
    cases hfull : shape.isFull with
    | true =>
      simp only [if_true]
      exact (ends_editGraph (I := EditsOnly k c) (.refl k c) fun h hok =>
        (editsOnly_convertToJump hok).1).bind fun _ _ he => .of_ok rfl he
    | false =>
      simp only [Bool.false_eq_true, if_false]
      refine (ends_editGraph (.refl k c) (hset _ _ k (.refl k c))).bind fun _ k₁ he₁ => ?_
      exact (ends_editGraph he₁ (hset _ _ k₁ he₁)).bind fun _ _ he₂ => .of_ok rfl he₂

end Stitch

/-- A loop whose tail is the entry of `countingLoop`, which ends in a jump: the hook turns the first
slot of its copy, and fails at the second. -/
def jumpTailShape : LoopShape := { countingShape with tail := 0, iterations := none }

/-- The copying fails with one copy made and edited. -/
theorem Cloning.block_appends_countingLoop :
    ∃ e s', Cloning.block (jumpTailShape.stitch 2) 0 0
        { graph := (Builder.countingLoop true).graph.threadLocals } = .error e s' ∧
      s'.offered = [(0, 3)] ∧ s'.graph.successor? 3 0 = some 2 ∧
      Appends (Builder.countingLoop true).graph.threadLocals s'.graph := by
  have hsound := (finished_countingLoop true).sound_analyzed.1
  have hrun : (match Cloning.block (jumpTailShape.stitch 2) 0 0
      { graph := (Builder.countingLoop true).graph.threadLocals } with
    | .ok _ _ => none
    | .error _ s' => some (s'.offered, s'.graph.successor? 3 0)) =
        some ([(0, 3)], some 2) := by
    decide +kernel
  cases hfail : Cloning.block (jumpTailShape.stitch 2) 0 0
      { graph := (Builder.countingLoop true).graph.threadLocals } with
  | ok c s' => simp [hfail] at hrun
  | error e s' =>
    simp only [hfail, Option.some.injEq, Prod.mk.injEq] at hrun
    have happends : Appends (Builder.countingLoop true).graph.threadLocals
        (finalState (.error e s' : EStateM.Result Error Session BlockId)).graph := by
      rw [← hfail]
      exact block_appends (s := { graph := (Builder.countingLoop true).graph.threadLocals })
        (validate_eq_ok_iff.2 hsound.wellFormed) (jumpTailShape.editsOnlyCopy_stitch 2)
    exact ⟨e, s', rfl, hrun.1, hrun.2, happends⟩

end Unroller
