import Mathlib.Tactic
import Unroller.Proofs.Cloning.Memo

/-!
# Generations of copies

A session is used call after call, and cleared to copy the same blocks anew.  In each generation
every source is copied at most once, whatever calls there are and however they end, and what one
generation has copied shares nothing with what another has.

* `Session.Use`, `Session.Move`: the calls in one generation, and what leads to the next.
* `Memo.use`: a call keeps to what is known of a session; `memo_of_moves`: so do generations.
* `CopiedOnce`, `NextCall`, `Renewed`: the copies there are, the calls that come next, and the
  generations after a clearing.
* `copiedOnce_of_moves`: all this holds of every session with a valid graph.
-/

namespace Unroller

open Relation Unroller.Graph Unroller.Cloning

/-! ## Sessions in use -/

/-- One use of a session for blocks of `g`, which began with the graph `k`: the copying of a block
of `g`, or of what is no block, the copying of a node of such a block into a copy, or an edit of a
copy. -/
inductive Session.Use (g k : Graph) : Session → Session → Prop
  | block {s : Session} (hook : Hook) (b : BlockId) (reach : Nat) (edits : hook.EditsOnlyCopy)
      (source : s.graph.isLive b = true → b < g.blocks.size) :
      Use g k s (finalState (Cloning.block hook b reach s))
  | node {s : Session} (target : BlockId) (n : NodeId) (copy : k.blocks.size ≤ target)
      (source : ∃ b, g.Lists b n) : Use g k s (finalState (Cloning.node target n s))
  | edit {s : Session} {h : Graph} (c : BlockId) (copy : k.blocks.size ≤ c)
      (edits : EditsOnly s.graph c h) : Use g k s (onto s h)

/-- A use of a session, which stands with the graph that it began with, or a clearing. -/
inductive Session.Move (g : Graph) : Graph × Session → Graph × Session → Prop
  | use {k : Graph} {s t : Session} (use : Session.Use g k s t) : Move g (k, s) (k, t)
  | clear (k : Graph) (s : Session) : Move g (k, s) (s.graph, s.clear)

/-- How often a block has been handed to the hook. -/
def Session.timesOffered (s : Session) (b : BlockId) : Nat := (s.offered.map Prod.fst).count b

namespace Cloning

variable {g h k k' : Graph} {hook : Hook} {b c d target : BlockId} {n m : NodeId} {s s' t : Session}

theorem blockCopy_eq_ok_iff : s.blockCopy b = .ok c ↔ s.blockCopies.lookup b = some c := by
  unfold Session.blockCopy
  cases s.blockCopies.lookup b <;> simp

/-! ## Calls -/

/-- A block that has been copied is not copied again. -/
theorem block_of_copied (hook : Hook) (reach : Nat) (hcopied : s.blockCopy b = .ok c) :
    Cloning.block hook b reach s = .ok c s := by
  rw [blockCopy_eq_ok_iff] at hcopied
  unfold Cloning.block
  rw [get_bind]
  obtain ⟨fuel, hfuel⟩ : ∃ fuel, (s.graph.blocks.size + 1) *
      (s.graph.blocks.size + s.graph.slotBound + reach + 1) = fuel + 1 :=
    Nat.exists_eq_succ_of_ne_zero (Nat.mul_pos (Nat.succ_pos _) (Nat.succ_pos _)).ne'
  simp only [hfuel]
  rw [blockFrom, get_bind]
  simp only [hcopied]
  rfl

/-- Nor is a node. -/
theorem node_of_copied (target : BlockId) (hcopied : s.nodeCopy? n = some m) :
    Cloning.node target n s = .ok m s := by
  unfold Cloning.node
  rw [get_bind]
  obtain ⟨fuel, hfuel⟩ : ∃ fuel, (s.graph.nodes.size + 1) * (s.graph.edgeBound + 1) = fuel + 1 :=
    Nat.exists_eq_succ_of_ne_zero (Nat.mul_pos (Nat.succ_pos _) (Nat.succ_pos _)).ne'
  simp only [hfuel]
  exact nodeFrom_of_copied hcopied

section Calls

variable (hw : g.WellFormed) (hgk : Apart g k) (hm : Memo g k s)

include hw hgk hm

theorem ends_block (hhook : hook.EditsOnlyCopy) (hb : s.graph.isLive b = true → b < g.blocks.size)
    (reach : Nat) :
    Ends (fun c t => Advance g k s t ∧ t.blockCopies.lookup b = some c) (BrokenOff g k hook s)
      (Cloning.block hook b reach) s := by
  unfold Cloning.block
  exact .get (ends_region hw hgk hhook hm (fun _ hblock => hb (isLive_of_block? hblock)) _
    (card_uncopied_lt_depth s (hgk.trans hw hm.apart).blocks.size_le reach))

theorem ends_node_memo (htarget : k.blocks.size ≤ target) (hn : g.Lists b n) :
    Ends (fun _ t => Memo g k t ∧ Later s t) (fun _ t => Memo g k t ∧ Later s t)
      (Cloning.node target n) s := by
  obtain ⟨block, hb, hmem⟩ := hn
  have hsources : ∀ m ∈ {m | m ∈ block.nodes}, ∃ d, g.Lists d m := fun m hm =>
    ⟨b, block, hb, List.mem_append_right _ hm⟩
  have hphis : ∀ d other, g.block? d = some other → s.blockCopies.lookup d = none →
      ∀ m ∈ other.phis, m ∉ {m | m ∈ block.nodes} := by
    intro d other hd _ m hphi hnode
    obtain rfl := hw.apart d other b block m hd hb (List.mem_append_left _ hphi)
      (List.mem_append_right _ hnode)
    obtain rfl := Option.some.inj (hd.symm.trans hb)
    exact (List.nodup_append'.1 (hw.nodup d other hd)).2.2 hphi hnode
  have hends := (adds_node hw hgk hm.apart htarget ⟨b, block, hb, hmem⟩).and
    (ends_node hw hb target (hgk.trans hw hm.apart).toGrows hmem)
  exact hends.mono
    (fun _ _ ht => ⟨hm.fill ht.2.1 ht.1 hsources hphis, .of_fills ht.2.1⟩)
    fun _ _ ht => ⟨hm.fill ht.2.1 ht.1 hsources hphis, .of_fills ht.2.1⟩

/-- **Every use** keeps to what is known of the session. -/
theorem Memo.use (huse : Session.Use g k s t) : Memo g k t ∧ Later s t := by
  cases huse with
  | block hook b reach edits source =>
    have hends : Ends (fun _ t => Memo g k t ∧ Later s t) (fun _ t => Memo g k t ∧ Later s t)
        (Cloning.block hook b reach) s :=
      (ends_block hw hgk hm edits source reach).mono (fun _ _ ht => ⟨ht.1.memo, ht.1.later⟩)
        fun _ _ ht => ⟨ht.memo, ht.later⟩
    exact hends.final (I := fun t => Memo g k t ∧ Later s t)
  | node target n copy source =>
    obtain ⟨b, hn⟩ := source
    exact (ends_node_memo hw hgk hm copy hn).final (I := fun t => Memo g k t ∧ Later s t)
  | edit c copy edits =>
    exact ⟨hm.edit copy edits, fun _ _ => id, fun _ _ => id, fun _ => id⟩

/-- What is known stays known, and copies stay copies. -/
theorem Memo.uses (huses : ReflTransGen (Session.Use g k) s t) : Memo g k t ∧ Later s t := by
  induction huses with
  | refl => exact ⟨hm, .refl s⟩
  | tail _ huse ih =>
    obtain ⟨ht, hlater⟩ := ih.1.use hw hgk huse
    exact ⟨ht, ih.2.trans hlater⟩

/-- **From generation to generation** blocks are only added, and own nothing from before. -/
theorem memo_of_moves (hmoves : ReflTransGen (Session.Move g) (k, s) (k', s')) :
    Apart k k' ∧ Memo g k' s' := by
  generalize hfirst : (k, s) = first at hmoves
  generalize hlast : (k', s') = last at hmoves
  induction hmoves generalizing k' s' with
  | refl =>
    cases hfirst.trans hlast.symm
    exact ⟨.refl k, hm⟩
  | tail _ hmove ih =>
    cases hmove with
    | use huse =>
      cases hlast
      obtain ⟨hk, hs⟩ := ih rfl
      exact ⟨hk, (hs.use hw (hgk.trans hw hk) huse).1⟩
    | clear j u =>
      cases hlast
      obtain ⟨hk, hs⟩ := ih rfl
      exact ⟨.trans_of_closed ((hgk.trans hw hk).closed hw) hk hs.apart, .start g u.graph⟩

end Calls

/-! ## Copies that share nothing -/

/-- In the graph `k`, the blocks `c` and `d` share no node, no record, and none of the variadic
operands there were in `h`.  A position that had no operand then is not asked about: a hook may
leave a copy with a range that reaches beyond the end. -/
structure Unshared (h k : Graph) (c d : BlockId) : Prop where
  block : c ≠ d
  node : ∀ n, k.Lists c n → ¬ k.Lists d n
  record : ∀ p, k.Names c p → ¬ k.Names d p
  operand : ∀ i < h.varArgs.size, k.Spans c i → ¬ k.Spans d i

/-- A block that was there shares nothing with one that was added. -/
theorem unshared_of_apart (hclosed : h.Closed) (ha : Apart h k) (hc : c < h.blocks.size)
    (hd : h.blocks.size ≤ d) : Unshared h k c d := by
  have hkeeps := ha.keeps hc
  refine ⟨Nat.ne_of_lt (hc.trans_le hd), fun n hcn hdn => ?_, fun p hcp hdp => ?_,
    fun i hi _ hdi => Nat.not_lt.2 (ha.spans d i hd hdi) hi⟩
  · exact Nat.not_lt.2 (ha.added d n hd hdn).1 (hclosed.node c n (hkeeps.lists_iff.1 hcn))
  · obtain ⟨r, hr⟩ := hclosed.record c p ((hkeeps.names_iff hclosed).1 hcp)
    rw [(ha.names d p hd hdp).1] at hr
    cases hr

/-- Every source has been copied at most once, no two have the same copy, and no copy is from before
the session began; what was handed to the hook was handed to it once, with its copy. -/
structure CopiedOnce (k : Graph) (s : Session) : Prop where
  node_once : (s.nodeCopies.map Prod.fst).Nodup
  block_once : (s.blockCopies.map Prod.fst).Nodup
  node_injective : ∀ n n' m, s.nodeCopy? n = some m → s.nodeCopy? n' = some m → n = n'
  node_new : ∀ n m, s.nodeCopy? n = some m → k.nodes.size ≤ m ∧ m < s.graph.nodes.size
  block_injective : ∀ b b' c, s.blockCopy b = .ok c → s.blockCopy b' = .ok c → b = b'
  block_new : ∀ b c, s.blockCopy b = .ok c → k.blocks.size ≤ c ∧ c < s.graph.blocks.size
  offered_once : ∀ b, s.timesOffered b ≤ 1
  offered_copy : ∀ b c, (b, c) ∈ s.offered → s.blockCopy b = .ok c

/-- How the next call in a session for blocks of `g` ends.  It does end, unless the hook does not.
When it succeeds, its result is what is recorded, and every block copied meanwhile has been handed
to the hook exactly once.  It changes nothing if the source had a copy. -/
structure NextCall (g : Graph) (s : Session) : Prop where
  block : ∀ (hook : Hook) b reach, hook.EditsOnlyCopy →
    (s.graph.isLive b = true → b < g.blocks.size) →
    Ends (fun c t => t.blockCopy b = .ok c ∧
        ∀ d e, t.blockCopy d = .ok e → s.blockCopy d ≠ .ok e → t.timesOffered d = 1)
      (fun e _ => e = .endlessCopy → hook.Endless) (Cloning.block hook b reach) s
  block_again : ∀ hook b c reach, s.blockCopy b = .ok c → Cloning.block hook b reach s = .ok c s
  node : ∀ target n, (∃ b, g.Lists b n) →
    Ends (fun m t => t.nodeCopy? n = some m) (fun e _ => e ≠ .endlessCopy) (Cloning.node target n) s
  node_again : ∀ target n m, s.nodeCopy? n = some m → Cloning.node target n s = .ok m s

/-- What has been copied in `s'` shares nothing with what was copied in the earlier session `s`. -/
structure Renewed (s s' : Session) : Prop where
  block : ∀ b b' c d, s.blockCopy b = .ok c → s'.blockCopy b' = .ok d →
    Unshared s.graph s'.graph c d
  node : ∀ n n' m m', s.nodeCopy? n = some m → s'.nodeCopy? n' = some m' → m ≠ m'

theorem Memo.copiedOnce (hm : Memo g k s) : CopiedOnce k s := by
  refine ⟨hm.nodes.nodup, hm.blocks.nodup, fun _ _ _ => hm.nodes.injective,
    fun _ _ => hm.nodes.range, ?_, ?_,
    List.nodup_iff_count_le_one.1 hm.once, fun b c hbc => blockCopy_eq_ok_iff.2 (hm.offered _ hbc)⟩
  · intro b b' c hb hb'
    exact hm.blocks.injective (blockCopy_eq_ok_iff.1 hb) (blockCopy_eq_ok_iff.1 hb')
  · intro b c hb
    exact hm.blocks.range (blockCopy_eq_ok_iff.1 hb)

section Assembly

variable (hw : g.WellFormed) (hgk : Apart g k) (hm : Memo g k s)

include hw hgk hm

theorem Memo.nextCall : NextCall g s := by
  refine ⟨fun hook b reach hhook hb => ?_, fun hook b c reach => block_of_copied hook reach,
    fun target n hn => ?_, fun target n m => node_of_copied target⟩
  · refine (ends_block hw hgk hm hhook hb reach).mono (fun c t ht => ?_) fun _ _ ht => ht.ended
    refine ⟨blockCopy_eq_ok_iff.2 ht.2, fun d e hd hnew => ?_⟩
    have hde := blockCopy_eq_ok_iff.1 hd
    have hnone : s.blockCopies.lookup d = none := by
      by_contra hsome
      obtain ⟨e', he'⟩ := Option.ne_none_iff_exists'.1 hsome
      obtain rfl := Option.some.inj ((ht.1.later.blocks d e' he').symm.trans hde)
      exact hnew (blockCopy_eq_ok_iff.2 he')
    exact List.count_eq_one_of_mem ht.1.memo.once (List.mem_map_of_mem (ht.1.offered d e hde hnone))
  · obtain ⟨b, block, hb, hmem⟩ := hn
    exact (ends_node hw hb target (hgk.trans hw hm.apart).toGrows hmem).mono (fun _ _ ht => ht.2)
      fun _ _ ht => ht.2

theorem Memo.renewed (hmoves : ReflTransGen (Session.Move g) (s.graph, s.clear) (k', s')) :
    Renewed s s' := by
  have hgs := hgk.trans hw hm.apart
  obtain ⟨hk, hm'⟩ := memo_of_moves hw hgs (.start g s.graph) hmoves
  have hk' : Apart s.graph s'.graph := .trans_of_closed ((hgs.trans hw hk).closed hw) hk hm'.apart
  refine ⟨fun b b' c d hb hb' => ?_, fun n n' m m' hn hn' => ?_⟩
  · obtain ⟨_, hc⟩ := hm.copiedOnce.block_new b c hb
    obtain ⟨hd, _⟩ := hm'.copiedOnce.block_new b' d hb'
    exact unshared_of_apart (hgs.closed hw) hk' hc (hk.blocks.size_le.trans hd)
  · obtain ⟨_, hlt⟩ := hm.copiedOnce.node_new n m hn
    obtain ⟨hle, _⟩ := hm'.copiedOnce.node_new n' m' hn'
    exact Nat.ne_of_lt (hlt.trans_le (hk.nodes.size_le.trans hle))

end Assembly

/-- **Each source is copied once.**  A session with a valid graph is used for whatever calls there
are, for blocks of that graph and with hooks that edit at most the copy, and cleared from time to
time.  Then no source has two copies and no two sources have one; the next call ends, returns the
recorded copy, and changes nothing when there is one; copies stay recorded until the session is
cleared; and what is copied after that shares nothing with what was copied before. -/
theorem copiedOnce_of_moves (hvalid : g.validate = .ok ())
    (hmoves : ReflTransGen (Session.Move g) (g, { graph := g }) (k, s)) :
    CopiedOnce k s ∧ NextCall g s ∧
      (∀ t, ReflTransGen (Session.Use g k) s t → Later s t) ∧
      ∀ k' s', ReflTransGen (Session.Move g) (s.graph, s.clear) (k', s') → Renewed s s' := by
  have hw := validate_eq_ok_iff.1 hvalid
  obtain ⟨hgk, hm⟩ := memo_of_moves hw (.refl g) (.start g g) hmoves
  exact ⟨hm.copiedOnce, hm.nextCall hw hgk, fun t huses => (hm.uses hw hgk huses).2,
    fun k' s' => hm.renewed hw hgk⟩

/-- Two generations of copies of the blocks of `countingLoop` before its exit. -/
theorem copiedOnce_of_moves_countingLoop :
    ∃ s t : Session,
      s = finalState (Cloning.block (countingShape.stitch 2) 0 0
        { graph := (Builder.countingLoop true).graph.threadLocals }) ∧
      t = finalState (Cloning.block (countingShape.stitch 2) 0 0 s.clear) ∧
      s.blockCopies = [(1, 4), (0, 3)] ∧ t.blockCopies = [(1, 6), (0, 5)] ∧
      CopiedOnce s.graph t ∧ Unshared s.graph t.graph 4 6 := by
  have hw := (finished_countingLoop true).sound_analyzed.1.wellFormed
  obtain ⟨block, hb⟩ := isLive_iff.1 hw.entry_live
  have hentry : entry < (Builder.countingLoop true).graph.threadLocals.blocks.size :=
    lt_size_of_block? hb
  have hedits := countingShape.editsOnlyCopy_stitch 2
  have hcopies : (finalState (Cloning.block (countingShape.stitch 2) 0 0
      { graph := (Builder.countingLoop true).graph.threadLocals })).blockCopies =
      [(1, 4), (0, 3)] := by decide +kernel
  have hcopies' : (finalState (Cloning.block (countingShape.stitch 2) 0 0
      (finalState (Cloning.block (countingShape.stitch 2) 0 0
        { graph := (Builder.countingLoop true).graph.threadLocals })).clear)).blockCopies =
      [(1, 6), (0, 5)] := by decide +kernel
  refine ⟨_, _, rfl, rfl, hcopies, hcopies', ?_⟩
  generalize hs : finalState (Cloning.block (countingShape.stitch 2) 0 0
    { graph := (Builder.countingLoop true).graph.threadLocals }) = s at hcopies hcopies' ⊢
  have hfirst : ReflTransGen (Session.Move (Builder.countingLoop true).graph.threadLocals)
      ((Builder.countingLoop true).graph.threadLocals,
        { graph := (Builder.countingLoop true).graph.threadLocals })
      ((Builder.countingLoop true).graph.threadLocals, s) :=
    .single (.use (hs ▸ .block _ 0 0 hedits fun _ => hentry))
  have hsecond : ReflTransGen (Session.Move (Builder.countingLoop true).graph.threadLocals)
      (s.graph, s.clear)
      (s.graph, finalState (Cloning.block (countingShape.stitch 2) 0 0 s.clear)) :=
    .single (.use (.block _ 0 0 hedits fun _ => hentry))
  have hall :=
    copiedOnce_of_moves (validate_eq_ok_iff.2 hw) ((hfirst.tail (.clear _ s)).trans hsecond)
  have hrenewed := (copiedOnce_of_moves (validate_eq_ok_iff.2 hw) hfirst).2.2.2 _ _ hsecond
  refine ⟨hall.1, hrenewed.block 1 1 4 6 ?_ ?_⟩
  · rw [blockCopy_eq_ok_iff, hcopies]
    rfl
  · rw [blockCopy_eq_ok_iff, hcopies']
    rfl

end Cloning

end Unroller
