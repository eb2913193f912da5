import Mathlib.Tactic
import Unroller.Proofs.Cloning.Calls
import Unroller.Proofs.Cloning.Copies
import Unroller.Proofs.Graph.Ownership
import Unroller.Proofs.Loop.Entries

/-!
# Copies are isomorphic

Every copy that the hook is handed is a replica of its source, node by node and record by record,
and uses nothing but itself.  Where the hook leaves the successors to the copying, each slot of the
copy leads in the end to the copy of what the source's slot leads to.

Nothing is asked of the hook but that it edits the copy it is given and nothing else; the copy may
be anything afterwards.  So the graph need not stay well-formed, and what carries the proof is who
owns what: blocks keep all that belongs to them as long as others are edited.

* `Hook.EditsCopy`: the hook at most edits the copy it is given.
* `IsCopy`: a copy of a block, as the hook finds it.
* `Tracking`: what is known of a session at any time; `Outcome`: what a part of the work does.
* `outcome_of_copies`: by induction over the tree of calls, every part of the work does that.
-/

namespace Unroller

open Unroller.Graph

/-- The hook at most edits the copy it is given, and gives it nothing that belongs to another
block. -/
def Hook.EditsCopy (hook : Hook) : Prop :=
  ∀ b c k handled k', k.Closed → k.SelfContained c → hook b c k = .ok handled k' → EditOf k c k'

namespace Cloning

variable {g h k : Graph} {hook : Hook} {b c d t : BlockId} {n : NodeId} {block copy : Block}
  {rename : NodeId → NodeId} {s s₁ s' : Session} {calls calls' : List Call} {call : Call}

/-! ## Copies -/

/-- The block `c` of `k`, made since `before`, is an isomorphic copy of the block `b` of `g`, and
self-contained: it shares nothing with other blocks, and its nodes use its own phis and what stands
before them, and name no record that was there before. -/
def IsCopy (g : Graph) (b : BlockId) (before k : Graph) (c : BlockId) : Prop :=
  ∃ block copy rename, g.block? b = some block ∧ k.block? c = some copy ∧
    Replica g block k copy rename ∧ k.SelfContained c ∧
    ∀ earlier n later, copy.nodes = earlier ++ n :: later → ∃ image, k.node? n = some image ∧
      before.record? image.payload = none ∧ ∀ d ∈ k.operands image, d ∈ copy.phis ++ earlier

/-- What a new copy consists of belongs to no other block. -/
theorem BlockCopied.editOf (hc : BlockCopied g block h copy rename) (hclosed : g.Closed)
    (hexists : ∀ n ∈ block.phis ++ block.nodes, ∃ node, g.node? n = some node) :
    EditOf g g.blocks.size h := by
  have hkept : ∀ d, d ≠ g.blocks.size → Keeps g h d :=
    fun d hd => hc.grows.keeps (by rw [hc.block?, if_neg hd])
  have hlists : ∀ m, h.Lists g.blocks.size m → g.nodes.size ≤ m ∧ m < h.nodes.size := by
    rintro m ⟨other, hother, hm⟩
    rw [hc.block?_copy] at hother
    obtain rfl := Option.some.inj hother
    rw [hc.phis, hc.nodes, ← List.map_append] at hm
    obtain ⟨n, hn, rfl⟩ := List.mem_map.1 hm
    obtain ⟨node, hnode⟩ := hexists n hn
    refine ⟨hc.fresh n, ?_⟩
    rcases List.mem_append.1 hn with hn | hn
    · exact lt_size_of_node? (hc.phi n hn node hnode)
    · obtain ⟨image, himage, _⟩ := hc.node n hn node hnode
      exact lt_size_of_node? himage
  have hnames : ∀ p, h.Names g.blocks.size p → g.record? p = none ∧ ∃ r, h.record? p = some r := by
    rintro p ⟨hp, other, hother, m, hm, image, himage, rfl⟩
    rw [hc.block?_copy] at hother
    obtain rfl := Option.some.inj hother
    rw [hc.nodes] at hm
    obtain ⟨n, hn, rfl⟩ := List.mem_map.1 hm
    obtain ⟨node, hnode⟩ := hexists n (List.mem_append_right _ hn)
    obtain ⟨image', himage', hcopy⟩ := hc.node n hn node hnode
    rw [himage] at himage'
    obtain rfl := Option.some.inj himage'
    exact ⟨hcopy.payload.record?_eq_none, exists_record?_of_admits hcopy.admits hp⟩
  refine ⟨hc.grows.roomier, hc.size_blocks ▸ Nat.le_succ _, ⟨?_, ?_⟩, ⟨?_, ?_⟩, hkept⟩
  · intro d m hm
    by_cases hd : d = g.blocks.size
    · exact (hlists m (hd ▸ hm)).2
    · exact lt_of_lt_of_le (hclosed.node d m ((hkept d hd).lists_iff.1 hm)) hc.grows.nodes.size_le
  · intro d p hp
    by_cases hd : d = g.blocks.size
    · exact (hnames p (hd ▸ hp)).2
    · obtain ⟨r, hr⟩ := hclosed.record d p (((hkept d hd).names_iff hclosed).1 hp)
      exact ⟨r, hc.grows.record?_of_some hr⟩
  · intro d m hm hdm
    by_contra hd
    exact Nat.not_lt.2 (hlists m hm).1 (hclosed.node d m ((hkept d hd).lists_iff.1 hdm))
  · intro d p hp hdp
    by_contra hd
    obtain ⟨r, hr⟩ := hclosed.record d p (((hkept d hd).names_iff hclosed).1 hdp)
    rw [(hnames p hp).1] at hr
    cases hr

/-- A replica of a block that was kept is a replica of what the block was. -/
theorem Replica.of_keeps (hr : Replica h block k copy rename) (hw : g.WellFormed)
    (hb : g.block? b = some block) (hk : Keeps g h b) (hroom : Roomier g h) :
    Replica g block k copy rename := by
  refine ⟨hr.executionCount, hr.flags, hr.phis, hr.nodes, hr.head, hr.tail, ?_, ?_, hr.injective⟩
  · intro n hn node hnode
    exact hr.phi n hn node (hk.node n ⟨block, hb, List.mem_append_left _ hn⟩ node hnode)
  · intro n hn node hnode
    have hlists : g.Lists b n := ⟨block, hb, List.mem_append_right _ hn⟩
    obtain ⟨image, himage, hcopy⟩ := hr.node n hn node (hk.node n hlists node hnode)
    obtain ⟨before, after, hsplit⟩ := List.append_of_mem hn
    have hok := (hw.block b block hb).node before n after hsplit node hnode
    refine ⟨image, himage, hcopy.shrink (hk.edges n hlists node hnode hok.inRange).2 ?_
      fun p => hroom.record?_of_none⟩
    intro r hr
    have hp := isRecord_of_record? hr
    obtain ⟨r', hr'⟩ := exists_record?_of_admits hok.admits hp
    have hkept := hk.record node.payload ⟨hp, block, hb, n, hn, node, hnode, rfl⟩ r' hr'
    rw [hr] at hkept
    rw [hr', hkept]

/-- **A block that has just been copied.** -/
theorem isCopy_of_blockCopied (hw : g.WellFormed) (hb : g.block? b = some block)
    (hk : Keeps g h b) (hroom : Roomier g h) (hc : BlockCopied h block k copy rename)
    (hself : k.SelfContained h.blocks.size) : IsCopy g b h k h.blocks.size := by
  refine ⟨block, copy, rename, hb, hc.block?_copy, hc.toReplica.of_keeps hw hb hk hroom, hself, ?_⟩
  intro earlier m later hsplit
  rw [hc.nodes] at hsplit
  obtain ⟨earlier', rest, hsource, rfl, hrest⟩ := List.map_eq_append_iff.1 hsplit
  obtain ⟨n, later', rfl, rfl, rfl⟩ := List.map_eq_cons_iff.1 hrest
  have hlists : g.Lists b n := ⟨block, hb, by simp [hsource]⟩
  obtain ⟨node, hnode⟩ := exists_node? (hw.closed.node b n hlists)
  have hok := (hw.block b block hb).node earlier' n later' hsource node hnode
  obtain ⟨image, himage, hcopy⟩ := hc.node n (by simp [hsource]) node (hk.node n hlists node hnode)
  refine ⟨image, himage, hcopy.payload.record?_eq_none, ?_⟩
  intro d hd
  rw [hcopy.all_operands, operands, (hk.edges n hlists node hnode hok.inRange).2] at hd
  obtain ⟨d', hd', rfl⟩ := List.mem_map.1 hd
  rw [hc.phis, ← List.map_append]
  refine List.mem_map_of_mem ?_
  rcases hok.visible d' hd' with hmem | hmem
  · exact List.mem_append_right _ hmem
  · exact List.mem_append_left _ hmem

/-! ## Sessions -/

/-- What is known of a session that began with the graph `g`. -/
structure Tracking (g : Graph) (s : Session) : Prop where
  roomier : Roomier g s.graph
  size_le : g.blocks.size ≤ s.graph.blocks.size
  closed : s.graph.Closed
  kept : ∀ b < g.blocks.size, Keeps g s.graph b
  copy : ∀ b c, s.blockCopies.lookup b = some c →
    g.blocks.size ≤ c ∧ c < s.graph.blocks.size ∧ s.graph.SelfContained c
  fresh : ∀ b block, g.block? b = some block → s.blockCopies.lookup b = none →
    ∀ n ∈ block.nodes, s.nodeCopies.lookup n = none

namespace Tracking

theorem start (hw : g.WellFormed) : Tracking g { graph := g } where
  roomier := .refl g
  size_le := le_rfl
  closed := hw.closed
  kept := fun b _ => .refl g b
  copy := fun b c hc => by cases hc
  fresh := fun _ _ _ _ _ _ => rfl

variable (ht : Tracking g s)

include ht

/-- The blocks there were are kept, and the copies share nothing, when a further block is edited. -/
theorem edit (hc : g.blocks.size ≤ c) (he : EditOf s.graph c s'.graph)
    (hcopies : s'.blockCopies = s.blockCopies) (hnodes : s'.nodeCopies = s.nodeCopies) :
    Tracking g s' where
  roomier := ht.roomier.trans he.roomier
  size_le := ht.size_le.trans he.size_le
  closed := he.closed
  kept := fun b hb =>
    (ht.kept b hb).trans (he.kept b (Nat.ne_of_lt (Nat.lt_of_lt_of_le hb hc)))
  copy := by
    intro b d hd
    rw [hcopies] at hd
    obtain ⟨hle, hlt, hself⟩ := ht.copy b d hd
    refine ⟨hle, Nat.lt_of_lt_of_le hlt he.size_le, ?_⟩
    by_cases hdc : d = c
    · exact hdc ▸ he.selfContained
    · exact he.selfContained_of_ne ht.closed hdc hself
  fresh := by
    rw [hcopies, hnodes]
    exact ht.fresh

/-- One more block has been copied. -/
theorem copyMade (hw : g.WellFormed) (hb : g.block? b = some block)
    (he : EditOf s.graph s.graph.blocks.size s'.graph)
    (hlt : s.graph.blocks.size < s'.graph.blocks.size) (hm : CopyMade s b block s') :
    Tracking g s' := by
  -- the copies made before, as if the new one had not been recorded
  have hold : Tracking g { s' with nodeCopies := s.nodeCopies, blockCopies := s.blockCopies } :=
    ht.edit ht.size_le he rfl rfl
  refine ⟨hold.roomier, hold.size_le, hold.closed, hold.kept, ?_, ?_⟩
  · intro d e hd
    rw [hm.blockCopies] at hd
    by_cases hdb : d = b
    · subst hdb
      obtain rfl : s.graph.blocks.size = e := by simpa using hd
      exact ⟨ht.size_le, hlt, he.selfContained⟩
    · rw [lookup_cons_of_ne hdb] at hd
      exact hold.copy d e hd
  · intro d other hother hnone n hn
    have hdb : d ≠ b := by
      rintro rfl
      rw [hm.blockCopies, List.lookup_cons_self] at hnone
      cases hnone
    rw [hm.blockCopies, lookup_cons_of_ne hdb] at hnone
    rw [hm.others n fun hmem => hdb (hw.apart d other b block n hother hb
      (List.mem_append_right _ hn) hmem)]
    exact ht.fresh d other hother hnone n hn

end Tracking

/-! ## What a part of the work does -/

/-- The slots of the copy `c` lead to the copies of what the slots of `b` lead to. -/
def LeadsToCopies (g : Graph) (s : Session) (b c : BlockId) : Prop :=
  ∀ slot t, g.successor? b slot = some t →
    ∃ t', s.blockCopies.lookup t = some t' ∧ s.graph.successor? c slot = some t'

/-- A call of the hook whose copy has been seen to. -/
structure Answered (g : Graph) (s : Session) (call : Call) : Prop where
  known : s.blockCopies.lookup call.source = some call.copy
  isCopy : IsCopy g call.source call.before call.graph call.copy
  leads : call.handled = false → LeadsToCopies g s call.source call.copy

theorem Answered.mono (ha : Answered g s call) (hclosed : s.graph.Closed)
    (hcopy : ∀ b c, s.blockCopies.lookup b = some c → s'.blockCopies.lookup b = some c)
    (hk : Keeps s.graph s'.graph call.copy) : Answered g s' call := by
  refine ⟨hcopy _ _ ha.known, ha.isCopy, fun hhandled slot t ht => ?_⟩
  obtain ⟨t', ht', hsucc⟩ := ha.leads hhandled slot t ht
  exact ⟨t', hcopy t t' ht', by rw [hk.successor?_eq hclosed, hsucc]⟩

/-- What a part of the work does that makes the calls `calls` and edits, of the blocks there were,
only those in `edited`. -/
structure Outcome (g : Graph) (edited : Set BlockId) (s : Session) (calls : List Call)
    (s' : Session) : Prop where
  tracking : Tracking g s'
  size_le : s.graph.blocks.size ≤ s'.graph.blocks.size
  copy : ∀ b c, s.blockCopies.lookup b = some c → s'.blockCopies.lookup b = some c
  kept : ∀ d < s.graph.blocks.size, d ∉ edited → Keeps s.graph s'.graph d
  offered : s'.offered = s.offered ++ calls.map fun call => (call.source, call.copy)
  call : ∀ call ∈ calls, s.graph.blocks.size ≤ call.copy ∧ Answered g s' call
  new : ∀ b c, s'.blockCopies.lookup b = some c → s.blockCopies.lookup b = none →
    ∃ call ∈ calls, call.source = b ∧ call.copy = c

namespace Outcome

variable {edited edited' : Set BlockId}

theorem refl (ht : Tracking g s) (edited : Set BlockId) : Outcome g edited s [] s where
  tracking := ht
  size_le := le_rfl
  copy := fun _ _ => id
  kept := fun d _ _ => .refl _ d
  offered := by simp
  call := by simp
  new := fun b c hc hn => by simp [hc] at hn

/-- Work that makes no call. -/
theorem edit (ht : Tracking g s) (hc : g.blocks.size ≤ c) (he : EditOf s.graph c k) :
    Outcome g {c} s [] (onto s k) where
  tracking := ht.edit hc he rfl rfl
  size_le := he.size_le
  copy := fun _ _ => id
  kept := fun d _ hd => he.kept d hd
  offered := by simp [onto]
  call := by simp
  new := fun b c hc hn => by
    have hc : s.blockCopies.lookup b = some c := hc
    simp [hc] at hn

/-- One part of the work after another, where the second edits no new block. -/
theorem trans (h₁ : Outcome g edited s calls s₁) (h₂ : Outcome g edited' s₁ calls' s')
    (hold : ∀ d ∈ edited', d < s.graph.blocks.size) :
    Outcome g (edited ∪ edited') s (calls ++ calls') s' where
  tracking := h₂.tracking
  size_le := h₁.size_le.trans h₂.size_le
  copy := fun b c hc => h₂.copy b c (h₁.copy b c hc)
  kept := by
    intro d hd hedited
    rw [Set.mem_union, not_or] at hedited
    exact (h₁.kept d hd hedited.1).trans
      (h₂.kept d (Nat.lt_of_lt_of_le hd h₁.size_le) hedited.2)
  offered := by rw [h₂.offered, h₁.offered, List.map_append, List.append_assoc]
  call := by
    intro call hcall
    rcases List.mem_append.1 hcall with hcall | hcall
    · obtain ⟨hsize, ha⟩ := h₁.call call hcall
      obtain ⟨_, hlt, _⟩ := h₁.tracking.copy _ _ ha.known
      exact ⟨hsize, ha.mono h₁.tracking.closed h₂.copy
        (h₂.kept call.copy hlt fun hmem => Nat.not_lt.2 hsize (hold _ hmem))⟩
    · obtain ⟨hsize, ha⟩ := h₂.call call hcall
      exact ⟨h₁.size_le.trans hsize, ha⟩
  new := by
    intro b c hc hnone
    cases hb : s₁.blockCopies.lookup b with
    | none =>
      obtain ⟨call, hcall, hsource⟩ := h₂.new b c hc hb
      exact ⟨call, List.mem_append_right _ hcall, hsource⟩
    | some c' =>
      obtain rfl : c' = c := by
        have := h₂.copy b c' hb
        rw [hc] at this
        exact (Option.some.inj this).symm
      obtain ⟨call, hcall, hsource⟩ := h₁.new b c' hb hnone
      exact ⟨call, List.mem_append_left _ hcall, hsource⟩

end Outcome

/-! ## One block -/

/-- A block that was kept can still be copied. -/
theorem Ordered.of_keeps (ho : Ordered g block) (hb : g.block? b = some block)
    (hk : Keeps g h b) (hroom : Roomier g h) : Ordered h block := by
  refine ⟨ho.nodup, fun n hn => ?_, fun before n after hsplit => ?_⟩
  · obtain ⟨node, hnode⟩ := ho.phi n hn
    exact ⟨node, hk.node n ⟨block, hb, List.mem_append_left _ hn⟩ node hnode⟩
  · obtain ⟨node, hnode, ha, hr, hphi, hoperands⟩ := ho.node before n after hsplit
    have hlists : g.Lists b n := ⟨block, hb, by simp [hsplit]⟩
    obtain ⟨hr', hedges⟩ := hk.edges n hlists node hnode hr
    refine ⟨node, hk.node n hlists node hnode, hroom.admits ha, hr', hphi, ?_⟩
    rw [operands, hedges]
    exact hoperands

/-- What has happened when the hook has answered for the copy `c` of `b`, which it found in the
graph `k`. -/
structure Offered (g : Graph) (b c : BlockId) (s : Session) (k : Graph) (s' : Session) : Prop where
  copy_eq : c = s.graph.blocks.size
  isCopy : IsCopy g b s.graph k c
  tracking : Tracking g s'
  edit : EditOf s.graph c s'.graph
  blockCopies : s'.blockCopies = (b, c) :: s.blockCopies
  offered : s'.offered = s.offered ++ [(b, c)]

/-- **One block**, up to the answer of the hook. -/
theorem Tracking.offer (hw : g.WellFormed) (hhook : hook.EditsCopy) (ht : Tracking g s)
    (hb : g.block? b = some block)
    (hrecorded : ∀ n ∈ recorded block, n ∈ block.phis ++ block.nodes)
    (huncopied : s.blockCopies.lookup b = none) {s₀ s₂ : Session} {handled : Bool}
    (hadded : freshBlock b block s = .ok c s₀) (hfilled : fill b c block s₀ = .ok ⟨⟩ s₁)
    (hanswer : offer hook b c s₁ = .ok handled s₂) : Offered g b c s s₁.graph s₂ := by
  have hkept := ht.kept b (lt_size_of_block? hb)
  have hordered := (ordered_of_wellFormed hw hb).of_keeps hb hkept ht.roomier
  have hfresh := ht.fresh b block hb huncopied
  obtain ⟨s₀', hadded', hnew⟩ := freshBlock_ok b block s
  rw [hadded] at hadded'
  cases hadded'
  obtain ⟨s₁', hfilled', hmade, hoffered⟩ := fill_ok hordered
    (supported_of_fill hordered hfresh hnew hfilled) hrecorded hfresh hnew
  rw [hfilled] at hfilled'
  cases hfilled'
  obtain ⟨copy, hcopied⟩ := hmade.copied
  have hedit : EditOf s.graph s.graph.blocks.size s₁.graph := by
    refine hcopied.editOf ht.closed fun n hn => ?_
    have hlists : g.Lists b n := ⟨block, hb, hn⟩
    obtain ⟨node, hnode⟩ := exists_node? (hw.closed.node b n hlists)
    exact ⟨node, hkept.node n hlists node hnode⟩
  have ht₁ := ht.copyMade hw hb hedit (by rw [hcopied.size_blocks]; omega) hmade
  obtain ⟨k, hk, rfl⟩ := offer_eq_ok hanswer
  have hedit' := hhook _ _ _ _ _ hedit.closed hedit.selfContained hk
  exact ⟨rfl, isCopy_of_blockCopied hw hb hkept ht.roomier hcopied hedit.selfContained,
    ht₁.edit ht.size_le hedit' rfl rfl, hedit.trans hedit', hmade.blockCopies, by rw [hoffered]⟩

/-- The copying of a block, once its slots have been seen to. -/
theorem Outcome.of_offered {handled : Bool} {s₂ : Session}
    (huncopied : s.blockCopies.lookup b = none) (ho : Offered g b c s k s₂)
    (hrest : Outcome g {c} s₂ calls s') (hleads : handled = false → LeadsToCopies g s' b c) :
    Outcome g ∅ s (⟨b, c, s.graph, k, handled⟩ :: calls) s' := by
  have hsize : s.graph.blocks.size ≤ s₂.graph.blocks.size := ho.edit.size_le
  have hold : ∀ d, d ≠ b → s₂.blockCopies.lookup d = s.blockCopies.lookup d := fun d hd => by
    rw [ho.blockCopies, lookup_cons_of_ne hd]
  have hself : s'.blockCopies.lookup b = some c :=
    hrest.copy b c (by rw [ho.blockCopies, List.lookup_cons_self])
  refine
    { tracking := hrest.tracking
      size_le := hsize.trans hrest.size_le
      copy := ?copy
      kept := ?kept
      offered := ?offered
      call := ?call
      new := ?new }
  case copy =>
    intro d e hd
    have hdb : d ≠ b := by
      rintro rfl
      rw [huncopied] at hd
      cases hd
    exact hrest.copy d e (by rw [hold d hdb, hd])
  case kept =>
    intro d hd _
    have hdc : d ≠ c := ho.copy_eq ▸ Nat.ne_of_lt hd
    exact (ho.edit.kept d hdc).trans (hrest.kept d (Nat.lt_of_lt_of_le hd hsize) hdc)
  case offered =>
    rw [hrest.offered, ho.offered]
    simp
  case call =>
    intro call hcall
    rcases List.mem_cons.1 hcall with rfl | hcall
    · exact ⟨ho.copy_eq.ge, hself, ho.isCopy, hleads⟩
    · obtain ⟨hle, ha⟩ := hrest.call call hcall
      exact ⟨hsize.trans hle, ha⟩
  case new =>
    intro d e hd hnone
    by_cases hdb : d = b
    · subst hdb
      rw [hself] at hd
      exact ⟨_, List.mem_cons_self .., rfl, Option.some.inj hd⟩
    · obtain ⟨call, hcall, hsource⟩ := hrest.new d e hd (by rw [hold d hdb, hnone])
      exact ⟨call, List.mem_cons_of_mem _ hcall, hsource⟩

/-! ## The tree of calls -/

namespace Job

/-- What a part of the work relies on. -/
def Ready (g : Graph) (s : Session) : Job → Prop
  | .block b _ => g.isLive b = true
  | .slots b c _ => g.isLive b = true ∧ s.blockCopies.lookup b = some c

/-- What a part of the work edits of the blocks there were. -/
def edited : Job → Set BlockId
  | .block _ _ => ∅
  | .slots _ c _ => {c}

/-- What a part of the work achieves. -/
def Settled (g : Graph) (s s' : Session) : Job → Prop
  | .block b c => s'.blockCopies.lookup b = some c
  | .slots b c is =>
    (∀ i ∈ is, ∀ t, g.successor? b i = some t →
      ∃ t', s'.blockCopies.lookup t = some t' ∧ s'.graph.successor? c i = some t') ∧
    ∀ i, i ∉ is → s'.graph.successor? c i = s.graph.successor? c i

end Job

/-- **Every part of the work** makes copies of what there was, and edits no other block. -/
theorem outcome_of_copies (hw : g.WellFormed)
    (hrecorded : ∀ b block, g.block? b = some block → ∀ n ∈ recorded block,
      n ∈ block.phis ++ block.nodes)
    (hhook : hook.EditsCopy) {job : Job} (hcopies : Copies hook job s calls s')
    (ht : Tracking g s) (hready : job.Ready g s) :
    Outcome g job.edited s calls s' ∧ job.Settled g s s' := by
  induction hcopies with
  | known hlookup => exact ⟨.refl ht _, hlookup⟩
  | done => exact ⟨.refl ht _, by simp, fun _ _ => rfl⟩
  | @copied b c block s s₀ s₁ s₂ s' handled calls huncopied hsource hadded hfilled hanswer _ ih =>
    have hlive : g.isLive b = true := hready
    have hlt : b < g.blocks.size := by
      obtain ⟨old, hold⟩ := isLive_iff.1 hlive
      exact lt_size_of_block? hold
    have hb : g.block? b = some block := by rw [← (ht.kept b hlt).block, hsource]
    have ho := ht.offer hw hhook hb (hrecorded b block hb) huncopied hadded hfilled hanswer
    have hself : s₂.blockCopies.lookup b = some c := by rw [ho.blockCopies, List.lookup_cons_self]
    obtain ⟨hrest, hsettled, _⟩ := ih ho.tracking ⟨hlive, hself⟩
    refine ⟨.of_offered huncopied ho hrest ?_, hrest.copy b c hself⟩
    rintro rfl slot t hslot
    refine hsettled slot ?_ t hslot
    have hcount := (ho.tracking.kept b hlt).successorCount_eq hw.closed
    simpa [hcount] using slot_lt_of_successor? hslot
  | @slot b c t t' i is s s₁ s' k calls calls' hsucc _ hset _ ih ih' =>
    obtain ⟨hlive, hself⟩ := hready
    obtain ⟨block, hb⟩ := isLive_iff.1 hlive
    have hslot : g.successor? b i = some t := by
      rw [← (ht.kept b (lt_size_of_block? hb)).successor?_eq hw.closed, hsucc]
    have htlive : g.isLive t = true := by
      obtain ⟨t₁, ht₁, htlive⟩ := (hw.block b block hb).successor i (slot_lt_of_successor? hslot)
      rw [hslot] at ht₁
      exact Option.some.inj ht₁ ▸ htlive
    obtain ⟨hfirst, hcopied⟩ := ih ht htlive
    obtain ⟨hle, hlt, hcontained⟩ := ht.copy b c hself
    have hself₁ := hfirst.copy b c hself
    obtain ⟨_, _, hcontained₁⟩ := hfirst.tracking.copy b c hself₁
    obtain ⟨hedit, hself₂⟩ := editOf_setSuccessor hfirst.tracking.closed hcontained₁ hset
    have hstep := hfirst.trans (Outcome.edit hfirst.tracking hle hedit) (by simpa using hlt)
    obtain ⟨hrest, hsettled, hothers⟩ := ih' hstep.tracking ⟨hlive, hself₁⟩
    have hkept := (hfirst.kept c hlt (Set.notMem_empty c)).successor?_eq ht.closed
    have hall := hstep.trans hrest (by simpa [Job.edited] using hlt)
    simp only [Job.edited, List.append_nil, Set.empty_union, Set.union_self] at hall
    refine ⟨hall, ?_, ?_⟩
    · intro j hj t₁ ht₁
      by_cases hjs : j ∈ is
      · exact hsettled j hjs t₁ ht₁
      · obtain rfl : j = i := by simpa [hjs] using hj
        rw [hslot] at ht₁
        obtain rfl := Option.some.inj ht₁
        refine ⟨t', hrest.copy t t' hcopied, ?_⟩
        rw [hothers j hjs]
        show k.successor? c j = _
        rw [hself₂, if_pos rfl]
    · intro j hj
      rw [List.mem_cons, not_or] at hj
      rw [hothers j hj.2]
      show k.successor? c j = _
      rw [hself₂, if_neg hj.1, hkept]

end Cloning

/-! ## The hook of a loop -/

/-- The hook that unrolling uses edits nothing but the copy of the tail. -/
theorem LoopShape.editsCopy_stitch (shape : LoopShape) (following : BlockId) :
    (shape.stitch following).EditsCopy := by
  intro b c k handled k' hc hs hok
  rw [LoopShape.stitch] at hok
  split at hok
  case isFalse =>
    cases hok
    exact .refl hc hs
  case isTrue =>
    cases hfull : shape.isFull with
    | true =>
      simp only [hfull, if_true] at hok
      obtain ⟨_, k₁, hedit, hok⟩ := Cloning.bind_eq_ok hok
      cases hok
      exact editOf_convertToJump hc hs (editGraph_eq_ok_iff.1 hedit)
    | false =>
      simp only [hfull, Bool.false_eq_true, if_false] at hok
      obtain ⟨_, k₁, hedit₁, hok⟩ := Cloning.bind_eq_ok hok
      obtain ⟨_, k₂, hedit₂, hok⟩ := Cloning.bind_eq_ok hok
      cases hok
      obtain ⟨he₁, _⟩ := editOf_setSuccessor hc hs (editGraph_eq_ok_iff.1 hedit₁)
      obtain ⟨he₂, _⟩ :=
        editOf_setSuccessor he₁.closed he₁.selfContained (editGraph_eq_ok_iff.1 hedit₂)
      exact he₁.trans he₂

end Unroller
