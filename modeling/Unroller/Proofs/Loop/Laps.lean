import Mathlib.Tactic
import Unroller.Proofs.Loop.Removal
import Unroller.Proofs.Loop.Turn
import Unroller.Proofs.Phase.SingleOwner

/-!
# Copies of a turn

Each time the body of an accepted loop is copied, one block is added for each block of its turn and
no other.

* `Lap`: a copy of the turn, as a map from the blocks of the turn to their copies.
* `lap_of_block`: copying from the header makes a lap, out of as many new blocks as the turn has.
* `Laps`: laps in a row, each leading to the next one, that are made of all new blocks.
* `laps_of_copyBodies`: making copies of the body puts them in front of a row.
-/

namespace Unroller

open Unroller.Graph Machine Cloning

variable {g h k k' : Graph} {loop : NaturalLoop} {shape : LoopShape}
  {preHeader following first : BlockId}
  {b c t : BlockId} {s s' : Session} {n i j : Nat} {copy : BlockId → BlockId}
  {lap : Nat → BlockId → BlockId} {config : UnrollConfig}

/-! ## One copy -/

/-- A copy of the turn of a loop, whose blocks lead to one another as those of the turn do.  The
copy of the tail leads to `following`. -/
structure Lap (g : Graph) (loop : NaturalLoop) (shape : LoopShape) (copy : BlockId → BlockId)
    (following : BlockId) (k : Graph) : Prop where
  live : ∀ b ∈ g.turn loop, k.isLive (copy b) = true
  visit : ∀ b ∈ g.turn loop, b ≠ shape.tail → ∀ store, visit k (copy b) store = visit g b store
  successor : ∀ b ∈ g.turn loop, b ≠ shape.tail → ∀ slot,
    k.successor? (copy b) slot = (g.successor? b slot).map copy
  tail : Stitched g shape following k (copy shape.tail)

theorem Lap.mono (hw : k.WellFormed) (hturn : g.Turn loop shape.tail)
    (hl : Lap g loop shape copy following k)
    (hs : ∀ b ∈ g.turn loop, SameCode k k' (copy b)) : Lap g loop shape copy following k' where
  live := fun b hb => (hs b hb).isLive
  visit := fun b hb hne store => by rw [visit_sameCode hw (hs b hb), hl.visit b hb hne]
  successor := fun b hb hne slot => by rw [(hs b hb).successor, hl.successor b hb hne]
  tail := hl.tail.mono hw (hs _ hturn.tail_mem)

namespace Cloning

/-- The copy of a block. -/
def copyOf (s : Session) (b : BlockId) : BlockId := (s.blockCopies.lookup b).getD b

theorem lookup_of_mem {made : List (BlockId × BlockId)} (hnodup : (made.map Prod.fst).Nodup)
    (h : (b, c) ∈ made) : made.lookup b = some c := by
  induction made with
  | nil => cases h
  | cons p made ih =>
    obtain ⟨d, e⟩ := p
    rw [List.map_cons, List.nodup_cons] at hnodup
    rcases List.mem_cons.1 h with heq | hmem
    · cases heq
      simp
    · have hne : b ≠ d := by
        rintro rfl
        exact hnodup.1 (List.mem_map.2 ⟨(b, c), hmem, rfl⟩)
      rw [lookup_cons_of_ne hne, ih hnodup.2 hmem]

section lap

variable (hturn : g.Turn loop shape.tail) (hheader : shape.header = loop.header)
  (hc : Copying g (g.turn loop) following s') (hstart : s'.blockCopies.lookup shape.header = some c)
  (hp : Progress g shape.tail (Stitched g shape following) s.clear s')

include hturn hheader hc hstart hp

omit hc in
/-- **Every block of the turn is copied**, because it is reached from the header. -/
theorem exists_copy (hb : b ∈ g.turn loop) : ∃ c, s'.blockCopies.lookup b = some c := by
  have hway := hturn.reached b hb
  induction hway with
  | refl => exact ⟨c, hheader ▸ hstart⟩
  | @tail v t _ hstep ih =>
    obtain ⟨hv, hne, hedge⟩ := hstep
    obtain ⟨cv, hcv⟩ := ih hv
    obtain ⟨slot, hslot⟩ := mem_successors_iff_successor?.1 hedge
    obtain ⟨ct, hct, _⟩ := (hp.done v cv hcv rfl).successor hne slot t hslot
    exact ⟨ct, hct⟩

omit hc in
theorem lookup_copyOf (hb : b ∈ g.turn loop) : s'.blockCopies.lookup b = some (copyOf s' b) := by
  obtain ⟨c, hc⟩ := exists_copy hturn hheader hstart hp hb
  simp [copyOf, hc]

theorem lap_copyOf : Lap g loop shape (copyOf s') following s'.graph where
  live := fun b hb => (hc.copy b _ (lookup_copyOf hturn hheader hstart hp hb)).2.2
  visit := fun b hb =>
    (hp.done b _ (lookup_copyOf hturn hheader hstart hp hb) rfl).visit
  successor := by
    intro b hb hne slot
    have hdone := hp.done b _ (lookup_copyOf hturn hheader hstart hp hb) rfl
    cases hslot : g.successor? b slot with
    | none =>
      refine Option.eq_none_iff_forall_ne_some.2 fun t' ht' => ?_
      obtain ⟨t, ht⟩ := hdone.slot hne slot t' ht'
      simp [hslot] at ht
    | some t =>
      obtain ⟨t', hcopy, ht'⟩ := hdone.successor hne slot t hslot
      rw [ht', Option.map_some, copyOf, hcopy, Option.getD_some]
  tail := (hp.done _ _ (lookup_copyOf hturn hheader hstart hp hturn.tail_mem) rfl).tail rfl

/-- **The new blocks are the copies**, one for each block of the turn. -/
theorem copies_copyOf {made : List (BlockId × BlockId)} (hmade : Allots s.clear s' made) :
    ((g.turn loop).map (copyOf s')).Perm
        (List.range' s.graph.blocks.size (g.turn loop).length) ∧
      s'.graph.blocks.size = s.graph.blocks.size + (g.turn loop).length := by
  have hcopies : s'.blockCopies = made := by simpa [Session.clear] using hmade.blockCopies
  have hnodup : (made.map Prod.fst).Nodup := hcopies ▸ hmade.sources (by simp [Session.clear])
  have hlookup : ∀ p ∈ made, s'.blockCopies.lookup p.1 = some p.2 :=
    fun p hp => hcopies ▸ lookup_of_mem hnodup hp
  have hkeys : (made.map Prod.fst).Perm (g.turn loop) := by
    refine (List.perm_ext_iff_of_nodup hnodup hturn.nodup).2 fun b => ⟨fun hb => ?_, fun hb => ?_⟩
    · obtain ⟨p, hp, rfl⟩ := List.mem_map.1 hb
      exact (hc.copy _ _ (hlookup p hp)).1
    · have hb := lookup_copyOf hturn hheader hstart hp hb
      obtain ⟨before, after, heq, _⟩ := List.lookup_eq_some_iff.1 (hcopies ▸ hb)
      simp [heq]
  have hlength : made.length = (g.turn loop).length := by simpa using hkeys.length_eq
  refine ⟨?_, hlength ▸ hmade.size⟩
  have hvalues : (made.map Prod.fst).map (copyOf s') =
      (List.range' s.graph.blocks.size made.length).reverse := by
    refine Eq.trans ?_ hmade.copies
    rw [List.map_map]
    exact List.map_congr_left fun p hp => by simp [copyOf, hlookup p hp]
  rw [← hlength]
  exact ((hkeys.map _).symm.trans (.of_eq hvalues)).trans (List.reverse_perm _)

end lap

end Cloning

/-- **Copying from the header** makes a lap, out of as many new blocks as the turn has. -/
theorem lap_of_block (hu : g.Unrollable loop shape) (he : Enlarged g s.graph)
    (hlive : s.graph.isLive following = true)
    (hok : Cloning.block (shape.stitch following) shape.header 0 s.clear = .ok first s') :
    ∃ copy, Lap g loop shape copy following s'.graph ∧ first = copy shape.header ∧
      ((g.turn loop).map copy).Perm
        (List.range' s.graph.blocks.size (g.turn loop).length) ∧
      s'.graph.blocks.size = s.graph.blocks.size + (g.turn loop).length ∧
      Enlarged g s'.graph ∧ ∀ d, s.graph.isLive d = true → SameCode s.graph s'.graph d := by
  obtain ⟨c, t, hblock, hcopying, hstart, hprogress⟩ :=
    block_ok hu.region (stitch_spec hu.region.wellFormed hu.parts following) he hlive
      (hu.header ▸ hu.turn.header_mem)
  rw [hok] at hblock
  cases hblock
  have hhook : ∀ source copy k handled h,
      shape.stitch following source copy k = .ok handled h → h.slots = k.slots :=
    fun _ _ _ _ _ => slots_stitch
  obtain ⟨made, hmade⟩ := allots_of_block hhook hok
  obtain ⟨hcopies, hsize⟩ := copies_copyOf hu.turn hu.header hcopying hstart hprogress hmade
  refine ⟨copyOf s', lap_copyOf hu.turn hu.header hcopying hstart hprogress, ?_, hcopies, hsize,
    hcopying.enlarged, hprogress.sameCode⟩
  simp [copyOf, hstart]

/-! ## Laps in a row -/

/-- Where the lap numbered `i` of `n` begins; after the last one comes what follows the row. -/
def LoopShape.entrance (shape : LoopShape) (n : Nat) (lap : Nat → BlockId → BlockId) (i : Nat) :
    BlockId :=
  if i < n then lap i shape.header else if shape.isFull then shape.next else shape.header

/-- A row with one more copy in front. -/
def ahead (copy : BlockId → BlockId) (lap : Nat → BlockId → BlockId) : Nat → BlockId → BlockId
  | 0 => copy
  | i + 1 => lap i

theorem entrance_ahead_zero : shape.entrance (n + 1) (ahead copy lap) 0 = copy shape.header := by
  simp [LoopShape.entrance, ahead]

theorem entrance_ahead_succ :
    shape.entrance (n + 1) (ahead copy lap) (i + 1) = shape.entrance n lap i := by
  simp [LoopShape.entrance, ahead]

/-- Laps in a row, each leading to the next one; the new blocks are those of the laps. -/
structure Laps (g : Graph) (loop : NaturalLoop) (shape : LoopShape) (n : Nat)
    (lap : Nat → BlockId → BlockId) (k : Graph) : Prop where
  each : ∀ i < n, Lap g loop shape (lap i) (shape.entrance n lap (i + 1)) k
  copies : ((List.range n).flatMap fun i => (g.turn loop).map (lap i)).Perm
    (List.range' g.blocks.size (n * (g.turn loop).length))
  size : k.blocks.size = g.blocks.size + n * (g.turn loop).length

theorem laps_zero (lap : Nat → BlockId → BlockId) : Laps g loop shape 0 lap g where
  each := fun i hi => absurd hi (Nat.not_lt_zero i)
  copies := by simp
  size := by simp

namespace Laps

theorem mem_copies (hl : Laps g loop shape n lap k) (hi : i < n) (hb : b ∈ g.turn loop) :
    g.blocks.size ≤ lap i b ∧ lap i b < k.blocks.size := by
  have hmem : lap i b ∈ (List.range n).flatMap fun i => (g.turn loop).map (lap i) :=
    List.mem_flatMap.2 ⟨i, List.mem_range.2 hi, List.mem_map_of_mem hb⟩
  rw [hl.copies.mem_iff, List.mem_range'_1] at hmem
  exact ⟨hmem.1, hl.size ▸ hmem.2⟩

/-- No block is in two laps, or twice in one. -/
theorem apart (hl : Laps g loop shape n lap k) (hi : i < n) (hj : j < n) (hb : b ∈ g.turn loop)
    (hc : c ∈ g.turn loop) (heq : lap i b = lap j c) : i = j ∧ b = c := by
  obtain ⟨hinner, hacross⟩ := List.nodup_flatMap.1 (hl.copies.nodup_iff.2 List.nodup_range')
  have hsymm : Std.Symm (Function.onFun List.Disjoint fun i => (g.turn loop).map (lap i)) :=
    ⟨fun _ _ hd => hd.symm⟩
  have hij : i = j := by
    by_contra hne
    exact hacross.forall (List.mem_range.2 hi) (List.mem_range.2 hj) hne
      (List.mem_map_of_mem hb) (heq ▸ List.mem_map_of_mem hc)
  subst hij
  exact ⟨rfl, List.inj_on_of_nodup_map (hinner i (List.mem_range.2 hi)) hb hc heq⟩

/-- One more lap in front. -/
theorem cons (hw : k.WellFormed) (hturn : g.Turn loop shape.tail) (hl : Laps g loop shape n lap k)
    (hs : ∀ d, k.isLive d = true → SameCode k k' d)
    (hlap : Lap g loop shape copy (shape.entrance n lap 0) k')
    (hcopies : ((g.turn loop).map copy).Perm
      (List.range' k.blocks.size (g.turn loop).length))
    (hsize : k'.blocks.size = k.blocks.size + (g.turn loop).length) :
    Laps g loop shape (n + 1) (ahead copy lap) k' where
  each := by
    intro i hi
    cases i with
    | zero =>
      rw [entrance_ahead_succ]
      exact hlap
    | succ i =>
      have hi := Nat.lt_of_succ_lt_succ hi
      rw [entrance_ahead_succ]
      exact (hl.each i hi).mono hw hturn fun b hb => hs _ ((hl.each i hi).live b hb)
  copies := by
    rw [List.range_succ_eq_map, List.flatMap_cons, List.flatMap_map, Nat.succ_mul,
      ← List.range'_append_1]
    refine (hcopies.append hl.copies).trans ?_
    rw [hl.size]
    exact List.perm_append_comm
  size := by
    rw [hsize, hl.size, Nat.succ_mul, Nat.add_assoc]

end Laps

/-- **Making copies of the body** puts laps in front of a row. -/
theorem laps_of_copyBodies (hu : g.Unrollable loop shape) {count : Nat} (he : Enlarged g s.graph)
    (hlive : s.graph.isLive following = true)
    (hlaps : Laps g loop shape n lap s.graph) (hfollowing : following = shape.entrance n lap 0)
    (hok : shape.copyBodies count following s = .ok first s') :
    ∃ lap', Laps g loop shape (n + count) lap' s'.graph ∧
      first = shape.entrance (n + count) lap' 0 ∧ Enlarged g s'.graph ∧
      s'.graph.isLive first = true := by
  induction count generalizing n lap following s with
  | zero =>
    cases hok
    exact ⟨lap, hlaps, hfollowing, he, hlive⟩
  | succ count ih =>
    rw [LoopShape.copyBodies] at hok
    obtain ⟨_, _, hclear, hok⟩ := Cloning.bind_eq_ok hok
    cases hclear
    obtain ⟨c, s₁, hblock, hok⟩ := Cloning.bind_eq_ok hok
    obtain ⟨copy, hlap, rfl, hcopies, hsize, he₁, hsame⟩ :=
      lap_of_block hu he hlive hblock
    have hlaps₁ := hlaps.cons he.sound.wellFormed hu.turn hsame (hfollowing ▸ hlap) hcopies hsize
    obtain ⟨lap', hlaps', hfirst, he', hlive'⟩ :=
      ih he₁ (hlap.live _ (hu.header ▸ hu.turn.header_mem)) hlaps₁ entrance_ahead_zero.symm hok
    rw [Nat.add_assoc, Nat.add_comm 1 count] at hlaps' hfirst
    exact ⟨lap', hlaps', hfirst, he', hlive'⟩

end Unroller
