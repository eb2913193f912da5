import Mathlib.Tactic
import Unroller.Proofs.Cloning.Calls
import Unroller.Proofs.Cloning.Copies
import Unroller.Proofs.Execution.Simulation

/-!
# Copying a region

Copying a block copies all that it leads to, up to the tail of the region, of whose copy the hook
takes care.  Whatever is copied is copied once, so the depth of the recursion is bounded by the
number of blocks not copied yet, and nothing can go wrong.

* `Region`: blocks that only the tail leads out of, all of which can be copied.
* `HookSpec`: what is asked of the hook.
* `Copying`: what is known of a session at any time; `Done`: what is known of a copy when its
  successors have been seen to.
* `Progress`: what a part of the work changes and what it leaves alone.
* `blockFrom_ok`: copying a block of the region succeeds, and all new copies are done; `block_ok`:
  so it does in a session without copies, from which copying starts.
-/

namespace Unroller.Cloning

open Unroller.Graph Machine

variable {g : Graph} {members : List BlockId} {tail following b c d t : BlockId}
  {s s' s'' : Session}
  {hook : Hook} {P : Graph → BlockId → Prop} {block : Block}

/-! ## Regions and hooks -/

/-- Blocks that can be copied, and that only the tail leads out of. -/
structure Region (g : Graph) (members : List BlockId) (tail : BlockId) : Prop where
  wellFormed : g.WellFormed
  live : ∀ b ∈ members, g.isLive b = true
  closed : ∀ b ∈ members, b ≠ tail → ∀ t ∈ g.successors b, t ∈ members
  cloneable : ∀ b ∈ members, ∀ block, g.block? b = some block → ∀ n ∈ block.nodes, ∀ node,
    g.node? n = some node → node.kind.cloneStrategy ≠ .unsupported

/-- The block `c` of `k` does what the block `b` of `g` does, and leads to the same blocks. -/
structure Twin (g : Graph) (b : BlockId) (k : Graph) (c : BlockId) : Prop where
  visit : ∀ store, visit k c store = visit g b store
  steps : stepCount? k c = stepCount? g b
  body : ∀ store, runBody k c store = runBody g b store
  successor : ∀ slot, k.successor? c slot = g.successor? b slot

theorem twin_of_sameCode (hw : g.WellFormed) (hs : SameCode g k b) : Twin g b k b where
  visit := visit_sameCode hw hs
  steps := stepCount?_sameCode hs
  body := runBody_sameCode hw hs
  successor := hs.successor

/-- The hook sees to the copy of the tail, so that the copy satisfies `P`, and to no other.  It may
lead the copy to the block `following`. -/
structure HookSpec (g : Graph) (tail following : BlockId) (hook : Hook)
    (P : Graph → BlockId → Prop) : Prop where
  other : ∀ b c k, b ≠ tail → hook b c k = .ok false k
  tail : ∀ c k, Enlarged g k → k.isLive following = true → g.blocks.size ≤ c →
    k.isLive c = true → Twin g tail k c →
    ∃ k', hook tail c k = .ok true k' ∧ Enlarged g k' ∧ k'.isLive c = true ∧
      (∀ d, d ≠ c → k.isLive d = true → SameCode k k' d) ∧ P k' c
  stable : ∀ k k' c, k.WellFormed → P k c → SameCode k k' c → P k' c

/-! ## Sessions -/

/-- What is known of a session in which blocks of the region are being copied. -/
structure Copying (g : Graph) (members : List BlockId) (following : BlockId) (s : Session) :
    Prop where
  enlarged : Enlarged g s.graph
  live : s.graph.isLive following = true
  copy : ∀ b c, s.blockCopies.lookup b = some c →
    b ∈ members ∧ g.blocks.size ≤ c ∧ s.graph.isLive c = true
  apart : ∀ b b' c, s.blockCopies.lookup b = some c → s.blockCopies.lookup b' = some c → b = b'
  fresh : ∀ b ∈ members, ∀ block, g.block? b = some block → s.blockCopies.lookup b = none →
    ∀ n ∈ block.nodes, s.nodeCopies.lookup n = none

/-- The copy `c` of `b` does what `b` does, and leads to the copies of what `b` leads to; the copy
of the tail is as the hook leaves it. -/
structure Done (g : Graph) (tail : BlockId) (P : Graph → BlockId → Prop) (s : Session)
    (b c : BlockId) : Prop where
  visit : b ≠ tail → ∀ store, visit s.graph c store = visit g b store
  steps : b ≠ tail → stepCount? s.graph c = stepCount? g b
  successor : b ≠ tail → ∀ slot t, g.successor? b slot = some t →
    ∃ t', s.blockCopies.lookup t = some t' ∧ s.graph.successor? c slot = some t'
  slot : b ≠ tail → ∀ slot t', s.graph.successor? c slot = some t' →
    ∃ t, g.successor? b slot = some t
  tail : b = tail → P s.graph c

/-- What a part of the work does: what there was stays, and what is copied is done. -/
structure Progress (g : Graph) (tail : BlockId) (P : Graph → BlockId → Prop) (s s' : Session) :
    Prop where
  copy : ∀ b c, s.blockCopies.lookup b = some c → s'.blockCopies.lookup b = some c
  sameCode : ∀ d, s.graph.isLive d = true → SameCode s.graph s'.graph d
  done : ∀ b c, s'.blockCopies.lookup b = some c → s.blockCopies.lookup b = none →
    Done g tail P s' b c

theorem Progress.refl (s : Session) : Progress g tail P s s :=
  ⟨fun _ _ => id, fun _ => .refl, fun b c hc hn => by simp [hc] at hn⟩

/-- A copy that is done stays done. -/
theorem Done.mono (hh : HookSpec g tail following hook P) (hw : s.graph.WellFormed)
    (hd : Done g tail P s b c)
    (hcopy : ∀ b c, s.blockCopies.lookup b = some c → s'.blockCopies.lookup b = some c)
    (hsame : SameCode s.graph s'.graph c) : Done g tail P s' b c := by
  refine ⟨?_, ?_, ?_, ?_, fun hb => hh.stable _ _ _ hw (hd.tail hb) hsame⟩
  · intro hb store
    rw [visit_sameCode hw hsame, hd.visit hb]
  · intro hb
    rw [stepCount?_sameCode hsame, hd.steps hb]
  · intro hb slot t ht
    obtain ⟨t', ht', hsucc⟩ := hd.successor hb slot t ht
    exact ⟨t', hcopy t t' ht', by rw [hsame.successor, hsucc]⟩
  · intro hb slot t' ht'
    rw [hsame.successor] at ht'
    exact hd.slot hb slot t' ht'

/-! ## Depth -/

/-- The blocks not copied yet. -/
def uncopied (g : Graph) (s : Session) : Finset BlockId :=
  (Finset.range g.blocks.size).filter fun b => s.blockCopies.lookup b = none

theorem card_uncopied_le (hcopy : ∀ b c, s.blockCopies.lookup b = some c →
    s'.blockCopies.lookup b = some c) : (uncopied g s').card ≤ (uncopied g s).card := by
  refine Finset.card_le_card fun b hb => ?_
  simp only [uncopied, Finset.mem_filter, Finset.mem_range] at hb ⊢
  refine ⟨hb.1, ?_⟩
  by_contra hne
  obtain ⟨c, hc⟩ := Option.ne_none_iff_exists'.1 hne
  rw [hcopy b c hc] at hb
  cases hb.2

/-- Copying one more block brings the end nearer. -/
theorem card_uncopied_lt (hb : b < g.blocks.size) (hnone : s.blockCopies.lookup b = none)
    (hcopies : s'.blockCopies = (b, c) :: s.blockCopies) :
    (uncopied g s').card < (uncopied g s).card := by
  refine Finset.card_lt_card ⟨fun d hd => ?_, fun hsub => ?_⟩
  · simp only [uncopied, Finset.mem_filter, Finset.mem_range, hcopies] at hd ⊢
    refine ⟨hd.1, ?_⟩
    rw [List.lookup_cons] at hd
    split at hd
    · cases hd.2
    · exact hd.2
  · have hmem : b ∈ uncopied g s := by simp [uncopied, hb, hnone]
    have := hsub hmem
    simp [uncopied, hcopies] at this

/-- Copying may go deeper than there are blocks. -/
theorem card_uncopied_lt_depth (s : Session) (hsize : g.blocks.size ≤ s.graph.blocks.size)
    (reach : Nat) : (uncopied g s).card < (s.graph.blocks.size + 1) *
      (s.graph.blocks.size + s.graph.slotBound + reach + 1) := by
  have hcard : (uncopied g s).card ≤ g.blocks.size := by
    refine (Finset.card_filter_le _ _).trans ?_
    simp
  have hle : s.graph.blocks.size + 1 ≤ (s.graph.blocks.size + 1) *
      (s.graph.blocks.size + s.graph.slotBound + reach + 1) :=
    Nat.le_mul_of_pos_right _ (Nat.succ_pos _)
  omega

/-! ## One block -/

/-- A block that has just been copied. -/
theorem Copying.copyMade (hc : Copying g members following s) (hb : b ∈ members)
    (hblock : s.graph.block? b = some block) (hold : g.block? b = some block)
    (hm : CopyMade s b block s') : Copying g members following s' := by
  obtain ⟨copy, hcopied⟩ := hm.copied
  have hw := hc.enlarged.sound.wellFormed
  have hnew : s'.graph.isLive s.graph.blocks.size = true := isLive_of_block? hcopied.block?_copy
  have holder : ∀ d c, s.blockCopies.lookup d = some c → c ≠ s.graph.blocks.size := by
    intro d c hd
    obtain ⟨other, hother⟩ := isLive_iff.1 (hc.copy d c hd).2.2
    exact Nat.ne_of_lt (lt_size_of_block? hother)
  refine ⟨hc.enlarged.copied hcopied hblock, hcopied.isLive hc.live, ?_, ?_, ?_⟩
  · intro d c hd
    rw [hm.blockCopies] at hd
    by_cases hdb : d = b
    · subst hdb
      obtain rfl : s.graph.blocks.size = c := by simpa using hd
      exact ⟨hb, hc.enlarged.size_le, hnew⟩
    · rw [lookup_cons_of_ne hdb] at hd
      obtain ⟨hmem, hsize, hlive⟩ := hc.copy d c hd
      exact ⟨hmem, hsize, hcopied.isLive hlive⟩
  · intro d d' c hd hd'
    rw [hm.blockCopies] at hd hd'
    by_cases hdb : d = b <;> by_cases hdb' : d' = b
    · rw [hdb, hdb']
    · rw [lookup_cons_of_ne hdb'] at hd'
      obtain rfl : s.graph.blocks.size = c := by simpa [hdb] using hd
      exact absurd rfl (holder d' _ hd')
    · rw [lookup_cons_of_ne hdb] at hd
      obtain rfl : s.graph.blocks.size = c := by simpa [hdb'] using hd'
      exact absurd rfl (holder d _ hd)
    · rw [lookup_cons_of_ne hdb] at hd
      rw [lookup_cons_of_ne hdb'] at hd'
      exact hc.apart d d' c hd hd'
  · intro d hd other hother hnone n hn
    have hdb : d ≠ b := by
      rintro rfl
      rw [hm.blockCopies, List.lookup_cons_self] at hnone
      cases hnone
    rw [hm.blockCopies, lookup_cons_of_ne hdb] at hnone
    have hother' : s.graph.block? d = some other := by
      rw [hc.enlarged.block? d (lt_size_of_block? hother), hother]
    rw [hm.others n fun hmem => hdb (hw.apart d other b block n hother' hblock
      (List.mem_append_right _ hn) hmem)]
    exact hc.fresh d hd other hother hnone n hn

/-- A block of the region that has not been copied can be. -/
theorem Copying.copy_ok (hr : Region g members tail) (hc : Copying g members following s)
    (hb : b ∈ members) (hnone : s.blockCopies.lookup b = none) :
    ∃ block s₀ s₁, g.block? b = some block ∧ s.graph.block? b = some block ∧
      freshBlock b block s = .ok s.graph.blocks.size s₀ ∧
      fill b s.graph.blocks.size block s₀ = .ok ⟨⟩ s₁ ∧ CopyMade s b block s₁ := by
  obtain ⟨block, hold⟩ := isLive_iff.1 (hr.live b hb)
  have hblock : s.graph.block? b = some block := by
    rw [hc.enlarged.block? b (lt_size_of_block? hold), hold]
  have hsupported : Supported s.graph block := by
    intro n hn image himage
    obtain ⟨⟨old, new, hold', hnew, hi, _⟩, _⟩ := hc.enlarged.sameCode b (hr.live b hb)
    rw [hold] at hold'
    obtain rfl := Option.some.inj hold'
    obtain ⟨node, hnode⟩ :=
      exists_node? (hr.wellFormed.exists_node b block hold n (List.mem_append_right _ hn))
    obtain ⟨image', himage', hni⟩ := hi.node n hn node hnode
    obtain rfl : image' = image := by simpa [himage] using himage'.symm
    rw [hni.kind]
    exact hr.cloneable b hb block hold n hn node hnode
  obtain ⟨s₀, hfresh, hadded⟩ := freshBlock_ok b block s
  obtain ⟨s₁, hfill, hmade, _⟩ := fill_ok
    (ordered_of_wellFormed hc.enlarged.sound.wellFormed hblock) hsupported
    (fun n hn => Cut.mem_of_mem_dropLast (hc.enlarged.sound.snapshot b block hblock n hn))
    (hc.fresh b hb block hold hnone) hadded
  exact ⟨block, s₀, s₁, hold, hblock, hfresh, hfill, hmade⟩

/-! ## The successors of a copy -/

/-- What is known when the first `i` successors of the copy `c` of `b` have been seen to; `s₁` is
the session from before. -/
structure Linking (g : Graph) (members : List BlockId) (tail following : BlockId)
    (P : Graph → BlockId → Prop) (b c : BlockId) (s₁ : Session) (i : Nat) (s : Session) : Prop where
  copying : Copying g members following s
  self : s₁.blockCopies.lookup b = some c
  copy : ∀ d e, s₁.blockCopies.lookup d = some e → s.blockCopies.lookup d = some e
  sameCode : ∀ d, d ≠ c → s₁.graph.isLive d = true → SameCode s₁.graph s.graph d
  visit : ∀ store, visit s.graph c store = visit g b store
  steps : stepCount? s.graph c = stepCount? g b
  before : ∀ slot < i, ∀ t, g.successor? b slot = some t →
    ∃ t', s.blockCopies.lookup t = some t' ∧ s.graph.successor? c slot = some t'
  after : ∀ slot, i ≤ slot → s.graph.successor? c slot = g.successor? b slot
  done : ∀ d e, s.blockCopies.lookup d = some e → s₁.blockCopies.lookup d = none →
    Done g tail P s d e

/-- What was copied before or for the next successor is done. -/
theorem Linking.done_of_progress (hh : HookSpec g tail following hook P) {s₁ : Session} {i : Nat}
    {d e : BlockId} (hl : Linking g members tail following P b c s₁ i s)
    (hp : Progress g tail P s s') (hd : s'.blockCopies.lookup d = some e)
    (hnone : s₁.blockCopies.lookup d = none) : Done g tail P s' d e := by
  cases hsd : s.blockCopies.lookup d with
  | none => exact hp.done d e hd hsd
  | some e' =>
    obtain rfl : e' = e := by
      have := hp.copy d e' hsd
      simpa [hd] using this.symm
    exact (hl.done d e' hsd hnone).mono hh hl.copying.enlarged.sound.wellFormed hp.copy
      (hp.sameCode e' (hl.copying.copy d e' hsd).2.2)

/-- **One more slot.** -/
theorem Linking.step (hh : HookSpec g tail following hook P) {s₁ : Session} {i : Nat}
    {copyBlock : BlockId → Cloning BlockId} (hl : Linking g members tail following P b c s₁ i s)
    (hb : g.isLive b = true) (ht : g.successor? b i = some t)
    (hcopyBlock : ∃ t' s', copyBlock t s = .ok t' s' ∧ Copying g members following s' ∧
      s'.blockCopies.lookup t = some t' ∧ Progress g tail P s s') :
    ∃ s', linkSlot copyBlock b c i s = .ok ⟨⟩ s' ∧
      Linking g members tail following P b c s₁ (i + 1) s' := by
  obtain ⟨t', s', hok, hc', ht', hp⟩ := hcopyBlock
  have hself := hl.copy b c hl.self
  obtain ⟨_, hsize, hclive⟩ := hl.copying.copy b c hself
  have hsucc : s.graph.successor? b i = some t := by
    rw [(hl.copying.enlarged.sameCode b hb).successor, ht]
  have hsame := hp.sameCode c hclive
  have hslot : s'.graph.successor? c i = some t := by
    rw [hsame.successor, hl.after i (Nat.le_refl i), ht]
  have hw' := hc'.enlarged.sound.wellFormed
  obtain ⟨k, hset, hredirected⟩ := setSuccessor_ok hw' hslot t'
  obtain ⟨_, _, htlive⟩ := hc'.copy t t' ht'
  have hkept : ∀ d, s'.graph.isLive d = true → d ≠ c → SameCode s'.graph k d :=
    fun d hd hne => hc'.enlarged.sameCode_redirected hredirected hsize hd hne
  have hlive : ∀ d, s'.graph.isLive d = true → k.isLive d = true := fun d hd => by
    rw [hredirected.toRetargeted.isLive_eq, hd]
  refine ⟨onto s' k, ?links,
    { copying :=
        { enlarged := hc'.enlarged.redirected hredirected hsize htlive
          live := hlive _ hc'.live
          copy := ?copied
          apart := hc'.apart
          fresh := hc'.fresh }
      self := hl.self
      copy := fun d e hd => hp.copy d e (hl.copy d e hd)
      sameCode := ?sameCode
      visit := ?visit
      steps := ?steps
      before := ?before
      after := ?after
      done := ?done }⟩
  case links =>
    rw [linkSlot, get_bind]
    simp only [hsucc]
    rw [bind_ok hok]
    simp only [tryGraph, hset]
    rfl
  case copied =>
    intro d e hd
    obtain ⟨hmem, hle, helive⟩ := hc'.copy d e hd
    exact ⟨hmem, hle, hlive e helive⟩
  case sameCode =>
    intro d hne hd
    have hsame₁ := hl.sameCode d hne hd
    have hsame₂ := hp.sameCode d hsame₁.isLive
    exact (hsame₁.trans hsame₂).trans (hkept d hsame₂.isLive hne)
  case visit =>
    intro store
    show Machine.visit k c store = _
    rw [visit_retargeted hw' hredirected.toRetargeted hsame.isLive,
      visit_sameCode hl.copying.enlarged.sound.wellFormed hsame, hl.visit]
  case steps =>
    show stepCount? k c = _
    rw [stepCount?_retargeted hredirected.toRetargeted, stepCount?_sameCode hsame, hl.steps]
  case before =>
    intro slot hlt t₁ ht₁
    show ∃ t₂, s'.blockCopies.lookup t₁ = some t₂ ∧ k.successor? c slot = some t₂
    rw [hredirected.self]
    by_cases hslot' : slot = i
    · subst hslot'
      rw [ht] at ht₁
      obtain rfl := Option.some.inj ht₁
      exact ⟨t', ht', by simp⟩
    · obtain ⟨t₂, ht₂, hsucc₂⟩ := hl.before slot (by omega) t₁ ht₁
      refine ⟨t₂, hp.copy t₁ t₂ ht₂, ?_⟩
      rw [if_neg hslot', hsame.successor, hsucc₂]
  case after =>
    intro slot hle
    show k.successor? c slot = _
    rw [hredirected.self, if_neg (by omega), hsame.successor, hl.after slot (by omega)]
  case done =>
    intro d e hd hnone
    have hd : s'.blockCopies.lookup d = some e := hd
    have hne : e ≠ c := by
      rintro rfl
      obtain rfl := hc'.apart d b e hd (hp.copy b e hself)
      rw [hl.self] at hnone
      cases hnone
    exact (hl.done_of_progress hh hp hd hnone).mono hh hw' (fun _ _ => id)
      (hkept e (hc'.copy d e hd).2.2 hne)

/-- A loop over numbers in a row. -/
theorem forM_range_ok {ε σ : Type} {f : Nat → EStateM ε σ PUnit} (Q : Nat → σ → Prop) (n i : Nat)
    {s : σ} (hstart : Q i s)
    (hstep : ∀ j, i ≤ j → j < i + n → ∀ s, Q j s → ∃ s', f j s = .ok ⟨⟩ s' ∧ Q (j + 1) s') :
    ∃ s', (List.range' i n).forM f s = .ok ⟨⟩ s' ∧ Q (i + n) s' := by
  induction n generalizing i s with
  | zero => exact ⟨s, rfl, hstart⟩
  | succ n ih =>
    obtain ⟨s₁, hok₁, hq₁⟩ := hstep i (Nat.le_refl i) (by omega) s hstart
    obtain ⟨s₂, hok₂, hq₂⟩ := ih (i + 1) hq₁ fun j hle hlt => hstep j (by omega) (by omega)
    refine ⟨s₂, ?_, by rwa [Nat.add_right_comm] at hq₂⟩
    rw [List.range'_succ, forM_cons_ok _ hok₁]
    exact hok₂

/-! ## Blocks -/

/-- The copy right after it was filled. -/
theorem twin_of_copyMade (hr : Region g members tail) (hc : Copying g members following s)
    (hold : g.block? b = some block) (hblock : s.graph.block? b = some block)
    (hm : CopyMade s b block s') : Twin g b s'.graph s.graph.blocks.size := by
  have hw := hc.enlarged.sound.wellFormed
  have hsame := hc.enlarged.sameCode b (isLive_of_block? hold)
  obtain ⟨copy, hcopied⟩ := hm.copied
  refine ⟨fun store => ?_, ?_, fun store => ?_, fun slot => ?_⟩
  · rw [visit_image hw hblock hcopied.block?_copy hcopied.image,
      visit_sameCode hr.wellFormed hsame]
  · rw [stepCount?_image hblock hcopied.block?_copy hcopied.image, stepCount?_sameCode hsame]
  · rw [runBody_image hw hblock hcopied.block?_copy hcopied.image,
      runBody_sameCode hr.wellFormed hsame]
  · rw [hcopied.successor?_eq hw hblock, hsame.successor]

/-- What the work on one block amounts to. -/
theorem progress_of_linking (hr : Region g members tail) (hc : Copying g members following s)
    (hnone : s.blockCopies.lookup b = none) (hm : CopyMade s b block s') (hb : b ≠ tail)
    (hlive : g.isLive b = true) {n : Nat} (hn : g.successorCount b = n)
    (hl : Linking g members tail following P b s.graph.blocks.size s' n s'') :
    Progress g tail P s s'' := by
  have hw := hc.enlarged.sound.wellFormed
  obtain ⟨copy, hcopied⟩ := hm.copied
  refine ⟨?_, ?_, ?_⟩
  · intro d e hd
    refine hl.copy d e ?_
    have hne : d ≠ b := by
      rintro rfl
      rw [hd] at hnone
      cases hnone
    rw [hm.blockCopies, lookup_cons_of_ne hne, hd]
  · intro d hd
    have hsame := hcopied.sameCode hw hd
    obtain ⟨other, hother⟩ := isLive_iff.1 hd
    exact hsame.trans (hl.sameCode d (Nat.ne_of_lt (lt_size_of_block? hother)) hsame.isLive)
  · intro d e hd hdnone
    by_cases hdb : d = b
    · subst hdb
      obtain rfl : s.graph.blocks.size = e := by
        have := hl.copy d _ hl.self
        rw [hd] at this
        exact (Option.some.inj this).symm
      refine ⟨fun _ => hl.visit, fun _ => hl.steps, fun _ slot t ht => ?_, fun _ slot t' ht' => ?_,
        fun heq => absurd heq hb⟩
      · exact hl.before slot (hn ▸ slot_lt_of_successor? ht) t ht
      · by_cases hslot : slot < g.successorCount d
        · exact (hr.wellFormed.slot_lt_iff hlive).1 hslot
        · rw [hl.after slot (by omega)] at ht'
          exact ⟨t', ht'⟩
    · refine hl.done d e hd ?_
      rw [hm.blockCopies, lookup_cons_of_ne hdb, hdnone]

/-- The copy of the tail, which the hook has seen to. -/
theorem tail_ok (hr : Region g members tail) (hh : HookSpec g tail following hook P)
    (hc : Copying g members following s) (hb : tail ∈ members)
    (hnone : s.blockCopies.lookup tail = none) (hold : g.block? tail = some block)
    (hblock : s.graph.block? tail = some block)
    (hm : CopyMade s tail block s') :
    ∃ s'', offer hook tail s.graph.blocks.size s' = .ok true s'' ∧ Copying g members following s'' ∧
      s''.blockCopies.lookup tail = some s.graph.blocks.size ∧ Progress g tail P s s'' := by
  have hw := hc.enlarged.sound.wellFormed
  have hc' := hc.copyMade hb hblock hold hm
  have hself : s'.blockCopies.lookup tail = some s.graph.blocks.size := by
    rw [hm.blockCopies, List.lookup_cons_self]
  obtain ⟨copy, hcopied⟩ := hm.copied
  obtain ⟨_, hsize, hlive⟩ := hc'.copy tail _ hself
  obtain ⟨k, hok, henlarged, hlive', hkept, hP⟩ := hh.tail _ s'.graph hc'.enlarged hc'.live
    hsize hlive (twin_of_copyMade hr hc hold hblock hm)
  have hliveAll : ∀ d, s'.graph.isLive d = true → k.isLive d = true := by
    intro d hd
    by_cases hne : d = s.graph.blocks.size
    · rw [hne]
      exact hlive'
    · exact (hkept d hne hd).isLive
  refine ⟨{ s' with graph := k, offered := s'.offered ++ [(tail, s.graph.blocks.size)] }, ?_,
    ⟨henlarged, hliveAll _ hc'.live, ?_, hc'.apart, hc'.fresh⟩, hself, ?_, ?_, ?_⟩
  · simp only [offer, hok]
  · intro d e hd
    obtain ⟨hmem, hle, helive⟩ := hc'.copy d e hd
    exact ⟨hmem, hle, hliveAll e helive⟩
  · intro d e hd
    have hne : d ≠ tail := by
      rintro rfl
      rw [hd] at hnone
      cases hnone
    show s'.blockCopies.lookup d = some e
    rw [hm.blockCopies, lookup_cons_of_ne hne, hd]
  · intro d hd
    have hsame := hcopied.sameCode hw hd
    obtain ⟨other, hother⟩ := isLive_iff.1 hd
    exact hsame.trans (hkept d (Nat.ne_of_lt (lt_size_of_block? hother)) hsame.isLive)
  · intro d e hd hdnone
    have hd : s'.blockCopies.lookup d = some e := hd
    have hdtail : d = tail := by
      by_contra hne
      rw [hm.blockCopies, lookup_cons_of_ne hne, hdnone] at hd
      cases hd
    subst hdtail
    obtain rfl : s.graph.blocks.size = e := by simpa [hself] using hd
    exact ⟨fun h => absurd rfl h, fun h => absurd rfl h, fun h => absurd rfl h,
      fun h => absurd rfl h, fun _ => hP⟩

/-- **Copying a block of a region** succeeds, and all new copies are done. -/
theorem blockFrom_ok (hr : Region g members tail) (hh : HookSpec g tail following hook P)
    (fuel : Nat) (hc : Copying g members following s) (hb : b ∈ members)
    (hfuel : (uncopied g s).card < fuel) :
    ∃ c s', blockFrom hook fuel b s = .ok c s' ∧ Copying g members following s' ∧
      s'.blockCopies.lookup b = some c ∧ Progress g tail P s s' := by
  induction fuel generalizing b s with
  | zero => exact absurd hfuel (Nat.not_lt_zero _)
  | succ fuel ih =>
    rw [blockFrom, get_bind]
    cases hlookup : s.blockCopies.lookup b with
    | some c => exact ⟨c, s, rfl, hc, hlookup, .refl s⟩
    | none =>
      obtain ⟨block, s₀, s₁, hold, hblock, hfresh, hfill, hm⟩ := hc.copy_ok hr hb hlookup
      simp only
      rw [get_bind, hblock]
      simp only
      rw [bind_ok hfresh, bind_ok hfill]
      by_cases htail : b = tail
      · subst htail
        obtain ⟨s₂, hoffer, hc₂, hlookup₂, hp⟩ := tail_ok hr hh hc hb hlookup hold hblock hm
        refine ⟨s.graph.blocks.size, s₂, ?_, hc₂, hlookup₂, hp⟩
        rw [bind_ok hoffer]
        rfl
      · -- the hook leaves the copy to the copying
        have hlive := hr.live b hb
        obtain ⟨s₂, hs₂⟩ : ∃ s₂, s₂ =
            { s₁ with offered := s₁.offered ++ [(b, s.graph.blocks.size)] } := ⟨_, rfl⟩
        have hoffer : offer hook b s.graph.blocks.size s₁ = .ok false s₂ := by
          rw [offer, hh.other b _ _ htail, hs₂]
        have hm₂ : CopyMade s b block s₂ := by
          subst hs₂
          exact ⟨hm.copied, hm.others, hm.blockCopies⟩
        have htwin := twin_of_copyMade hr hc hold hblock hm₂
        have hc₂ := hc.copyMade hb hblock hold hm₂
        have hstart : Linking g members tail following P b s.graph.blocks.size s₂ 0 s₂ :=
          ⟨hc₂, by rw [hm₂.blockCopies, List.lookup_cons_self], fun _ _ => id,
            fun d _ hd => .refl hd,
            htwin.visit, htwin.steps, by simp, fun slot _ => htwin.successor slot,
            fun d e hd hn => by simp [hd] at hn⟩
        have hcount : s₂.graph.successorCount b = g.successorCount b :=
          (hc₂.enlarged.sameCode b hlive).successorCount_eq hr.wellFormed
            hc₂.enlarged.sound.wellFormed hlive
        obtain ⟨s₃, hlink, hl⟩ := forM_range_ok
          (Linking g members tail following P b s.graph.blocks.size s₂)
            (g.successorCount b) 0 hstart
          (f := linkSlot (blockFrom hook fuel) b s.graph.blocks.size) (by
            intro i _ hi s' hl'
            obtain ⟨block', hblock'⟩ := isLive_iff.1 hlive
            obtain ⟨t, ht, _⟩ := (hr.wellFormed.block b block' hblock').successor i (by omega)
            refine hl'.step hh hlive ht (ih hl'.copying ?_ ?_)
            · exact hr.closed b hb htail t (mem_successors_of_successor? ht)
            · have h₁ := card_uncopied_lt (lt_size_of_block? hold) hlookup hm₂.blockCopies
              have h₂ := card_uncopied_le (g := g) hl'.copy
              omega)
        refine ⟨s.graph.blocks.size, s₃, ?_, hl.copying, hl.copy b _ hl.self,
          progress_of_linking hr hc hlookup hm₂ htail hlive (by omega) hl⟩
        rw [bind_ok hoffer]
        simp only [Bool.not_false, if_true]
        have hsuccessors :
            successors (blockFrom hook fuel) b s.graph.blocks.size s₂ = .ok ⟨⟩ s₃ := by
          rw [successors_eq_linkSlot, hcount, List.range_eq_range']
          exact hlink
        rw [bind_ok hsuccessors]
        rfl

/-- **Copying a region** from one of its blocks, in a session without copies. -/
theorem block_ok (hr : Region g members tail) (hh : HookSpec g tail following hook P)
    (he : Enlarged g s.graph) (hlive : s.graph.isLive following = true) (hb : b ∈ members) :
    ∃ c s', Cloning.block hook b 0 s.clear = .ok c s' ∧ Copying g members following s' ∧
      s'.blockCopies.lookup b = some c ∧ Progress g tail P s.clear s' := by
  have hcopying : Copying g members following s.clear :=
    ⟨he, hlive, fun _ _ h => (by cases h), fun _ _ _ h => (by cases h), fun _ _ _ _ _ _ _ => rfl⟩
  exact blockFrom_ok hr hh _ hcopying hb (card_uncopied_lt_depth s.clear he.size_le 0)

end Unroller.Cloning
