import Mathlib.Tactic
import Mathlib.Data.Set.Card
import Unroller.Proofs.Digraph.DominatorPass

/-!
# The dominator tree is right

The last pass turns the entries of the settled vertices into immediate dominators, in the order of
the search: an entry that is not the semidominator names a vertex dealt with before
(`Resolved.step`).  Reading the tree upward then lists the strict dominators of a vertex, each once
(`strictDominators_spec`).

* `isReachable_iff`, `immediateDominator?_eq_some_iff`: what the tree records of a vertex.
* `dominatorTree_correct`: dominance, immediate dominators and depths, for every graph and entry.
-/

namespace Unroller.Digraph

/-! ## Resolving the entries -/

/-- The vertices in `seen` have their immediate dominator, the others the entry of the pass. -/
structure Resolved (g : Digraph) (root : Nat) (before : Array (Option Nat)) (seen : List Nat)
    (idom : Array (Option Nat)) : Prop where
  size : idom.size = g.size
  right : ∀ v ∈ seen, v ≠ root → ∃ d, idom.getD v none = some d ∧ g.IsImmediate root d v
  same : ∀ v, v ∉ seen → idom.getD v none = before.getD v none
  entry : idom.getD root none = none

section Resolve

variable {g : Digraph} {root : Nat} {tree : List (Nat × Option Nat)} {s : DominatorState}

/-- A vertex whose predecessors in the search order are resolved. -/
theorem Resolved.step (ht : IsSearchTree g root tree) (h : Progress g tree 1 s) {w : Nat}
    {seen : List Nat} {idom : Array (Option Nat)} (hw : w ∈ tree.map (·.1)) (hnot : w ∉ seen)
    (hseen : ∀ v ∈ tree.map (·.1), position tree v < position tree w → v ∈ seen)
    (hr : Resolved g root s.idom seen idom) :
    Resolved g root s.idom (seen ++ [w]) (resolve s.forest.semi idom w) := by
  have hwlt : w < idom.size := by
    rw [hr.size]
    exact ((ht.mem_iff w).1 hw).right_lt
  by_cases hroot : w = root
  · -- the root has no entry
    subst hroot
    have hkeep : resolve s.forest.semi idom w = idom := by simp [resolve, hr.entry]
    rw [hkeep]
    refine ⟨hr.size, fun v hv hne => ?_, fun v hv => hr.same v ?_, hr.entry⟩
    · exact hr.right v ((List.mem_append.1 hv).resolve_right (by simpa using hne)) hne
    · exact fun hmem => hv (List.mem_append_left _ hmem)
  obtain ⟨d, hd, hset⟩ := h.settled_of_one ht hw hroot
  have hidom : idom.getD w none = some d := (hr.same w hnot).trans hd
  have hsemi := h.known.found w hw (by
    have := ht.ancestor_lt (ht.root_ancestor hw) (Ne.symm hroot)
    omega)
  have hres : resolve s.forest.semi idom w =
      if d = s.forest.semiOf w then idom else idom.setIfInBounds w (idom.getD d none) := by
    simp only [resolve, hidom, Forest.semiOf]
    rfl
  obtain ⟨t, hwt, hcase⟩ := hset
  obtain rfl := IsSearchTree.isSemi_unique hsemi hwt
  rw [hres]
  -- what changes is the entry of `w`, and it becomes its immediate dominator
  suffices hnew : ∃ idom' e, idom' = (if d = s.forest.semiOf w then idom
      else idom.setIfInBounds w (idom.getD d none)) ∧ idom'.size = g.size ∧
      (∀ v, v ≠ w → idom'.getD v none = idom.getD v none) ∧ idom'.getD w none = some e ∧
      g.IsImmediate root e w by
    obtain ⟨idom', e, hidom', hsize, hothers, he, himm⟩ := hnew
    rw [← hidom']
    refine ⟨hsize, fun v hv hne => ?_, fun v hv => ?_, ?_⟩
    · by_cases hvw : v = w
      · subst hvw
        exact ⟨e, he, himm⟩
      · rw [hothers v hvw]
        exact hr.right v ((List.mem_append.1 hv).resolve_right (by simpa using hvw)) hne
    · rw [List.mem_append, not_or] at hv
      rw [hothers v (by simpa using hv.2), hr.same v hv.1]
    · rw [hothers root (Ne.symm hroot), hr.entry]
  rcases hcase with ⟨rfl, hleast⟩ | ⟨hsd, hds, hdw, hne, t, hdt, hleast⟩
  · exact ⟨idom, _, by simp, hr.size, fun _ _ => rfl, hidom,
      ht.isImmediate_of_semi hw hroot hsemi hleast⟩
  · have hdmem := ht.ancestor_mem hdw hw
    have hdroot : d ≠ root := ht.ne_root_of_lt hsemi.1 (ht.ancestor_lt hsd hds.symm)
    obtain ⟨e, he, himm⟩ := hr.right d (hseen d hdmem (ht.ancestor_lt hdw hne)) hdroot
    refine ⟨idom.setIfInBounds w (some e), e, ?_, ?_, fun v hv => ?_, ?_,
      ht.isImmediate_of_least hw hsemi hsd hds hdw hdt hleast himm⟩
    · rw [if_neg hds, he]
    · simpa using hr.size
    · rw [getD_setIfInBounds, if_neg fun hc => hv hc.1.symm]
    · rw [getD_setIfInBounds, if_pos ⟨rfl, hwlt⟩]

theorem Resolved.fold (ht : IsSearchTree g root tree) (h : Progress g tree 1 s) :
    ∀ (todo seen : List Nat) (idom : Array (Option Nat)), tree.map (·.1) = seen ++ todo →
      Resolved g root s.idom seen idom →
      Resolved g root s.idom (tree.map (·.1)) (todo.foldl (resolve s.forest.semi) idom) := by
  intro todo
  induction todo with
  | nil =>
    intro seen idom hsplit hr
    rw [hsplit, List.append_nil]
    exact hr
  | cons w todo ih =>
    intro seen idom hsplit hr
    have hnodup := ht.nodup
    rw [hsplit, List.nodup_append] at hnodup
    have hnot : w ∉ seen := fun hmem => hnodup.2.2 w hmem w (List.mem_cons_self ..) rfl
    refine ih (seen ++ [w]) _ (by simp [hsplit]) (hr.step ht h (by simp [hsplit]) hnot ?_)
    -- what stands before `w` has been seen
    intro v hv hlt
    rw [hsplit] at hv
    refine (List.mem_append.1 hv).resolve_right fun hmem => ?_
    have hvnot : v ∉ seen := fun hin => hnodup.2.2 v hin v hmem rfl
    simp only [position, hsplit, List.idxOf_append_of_notMem hvnot,
      List.idxOf_append_of_notMem hnot, List.idxOf_cons_self] at hlt
    omega

end Resolve

/-! ## What the tree records -/

/-- The pass over all vertices but the root, which comes first and has no parent. -/
theorem Progress.whole {g : Digraph} {root : Nat} {tree : List (Nat × Option Nat)}
    (ht : IsSearchTree g root tree) (hroot : root ∈ tree.map (·.1)) :
    Progress g tree 1
      (tree.foldr
        (fun (e : Nat × Option Nat) s =>
          match e.2 with
          | some parent => dominatorStep (g.predecessors (tree.map (·.1))) s e.1 parent
          | none => s)
        (g.initialState tree)) := by
  have hpreds : ∀ w v, w ∈ tree.map (·.1) →
      (v ∈ (g.predecessors (tree.map (·.1))).getD w [] ↔ v ∈ tree.map (·.1) ∧ g.Edge v w) := by
    intro w v hw
    have hwlt := ((ht.mem_iff w).1 hw).right_lt
    rw [mem_predecessors hwlt]
    refine and_congr_right fun hv => ?_
    exact ⟨fun hs => ⟨((ht.mem_iff v).1 hv).right_lt, hwlt, hs⟩, fun he => he.2.2⟩
  generalize g.predecessors (tree.map (·.1)) = preds at hpreds ⊢
  have hne : tree ≠ [] := by
    rintro rfl
    simp at hroot
  obtain ⟨⟨v, q⟩, rest, htree⟩ := List.exists_cons_of_ne_nil hne
  have hrest := Progress.suffix ht hpreds rest [(v, q)] (by simp [htree]) (by simp)
  have hq : q = none := by
    cases q with
    | none => rfl
    | some p =>
      have hp : TreeParent tree p v := by simp [TreeParent, htree]
      have := ht.parent_lt p v hp
      have : position tree v = 0 := by simp [htree, position]
      omega
  subst hq
  generalize g.initialState tree = start at hrest ⊢
  rw [htree, List.foldr_cons, ← htree]
  exact hrest

section Tree

variable {g : Digraph} {entry : Nat}

theorem exists_resolved (h : entry < g.size) :
    ∃ before idom, g.dominatorTree entry = ⟨entry, idom.setIfInBounds entry (some entry)⟩ ∧
      Resolved g entry before ((g.spanningTree entry).map (·.1)) idom ∧
      ∀ v, ¬ g.Reaches entry v → before.getD v none = none := by
  have ht := spanningTree_isSearchTree h
  have hentry : entry ∈ (g.spanningTree entry).map (·.1) := (ht.mem_iff entry).2 (.refl h)
  have hprog := Progress.whole ht hentry
  simp only [dominatorTree]
  generalize g.spanningTree entry = tree at ht hentry hprog ⊢
  generalize tree.foldr _ (g.initialState tree) = s at hprog ⊢
  have hzero := ht.position_root hentry
  have hstart : Resolved g entry s.idom [] s.idom :=
    { size := hprog.idom_size
      right := by simp
      same := fun _ _ => rfl
      entry := hprog.untouched entry (by omega) }
  refine ⟨s.idom, _, rfl, Resolved.fold ht hprog (tree.map (·.1)) [] s.idom (by simp) hstart, ?_⟩
  exact fun v hv => hprog.untouched v fun hc => hv ((ht.mem_iff v).1 hc.1)

/-- The entry of each vertex in the finished tree. -/
theorem parent?_dominatorTree (h : entry < g.size) (v : Nat) :
    (v = entry → (g.dominatorTree entry).parent? v = some entry) ∧
    (¬ g.Reaches entry v → (g.dominatorTree entry).parent? v = none) ∧
    (g.Reaches entry v → v ≠ entry →
      ∃ d, (g.dominatorTree entry).parent? v = some d ∧ g.IsImmediate entry d v) := by
  have ht := spanningTree_isSearchTree h
  obtain ⟨before, idom, heq, hres, hbefore⟩ := exists_resolved h
  have hget : ∀ v, (g.dominatorTree entry).parent? v =
      if entry = v then some entry else idom.getD v none := by
    intro v
    rw [heq, DominatorTree.parent?, getD_setIfInBounds]
    by_cases hv : entry = v
    · subst hv
      rw [if_pos ⟨rfl, by rw [hres.size]; exact h⟩, if_pos rfl]
    · rw [if_neg fun hc => hv hc.1, if_neg hv]
  refine ⟨fun hv => ?_, fun hv => ?_, fun hv hne => ?_⟩
  · rw [hget, if_pos hv.symm]
  · have hne : entry ≠ v := by
      rintro rfl
      exact hv (.refl h)
    have hnot : v ∉ (g.spanningTree entry).map (·.1) := fun hmem => hv ((ht.mem_iff v).1 hmem)
    rw [hget, if_neg hne, hres.same v hnot, hbefore v hv]
  · rw [hget, if_neg (Ne.symm hne)]
    exact hres.right v ((ht.mem_iff v).2 hv) hne

/-- From an entry out of range nothing is reached. -/
theorem parent?_dominatorTree_of_not_lt (h : ¬ entry < g.size) (v : Nat) :
    (g.dominatorTree entry).parent? v = none := by
  simp only [dominatorTree, spanningTree_eq_nil h, DominatorTree.parent?, List.foldr_nil,
    List.map_nil, List.foldl_nil, initialState]
  rw [getD_setIfInBounds, if_neg fun hc => h (by simpa [hc.1] using hc.2)]
  by_cases hv : v < g.size <;> simp [Array.getD_eq_getD_getElem?, hv]

theorem not_reaches_of_not_lt (h : ¬ entry < g.size) (v : Nat) : ¬ g.Reaches entry v :=
  fun hr => h hr.left_lt

theorem isReachable_iff (v : Nat) :
    (g.dominatorTree entry).isReachable v = true ↔ g.Reaches entry v := by
  rw [DominatorTree.isReachable, Option.isSome_iff_exists]
  by_cases h : entry < g.size
  · obtain ⟨h1, h2, h3⟩ := parent?_dominatorTree h v
    constructor
    · rintro ⟨d, hd⟩
      by_contra hno
      rw [h2 hno] at hd
      simp at hd
    · intro hr
      by_cases hv : v = entry
      · exact ⟨entry, h1 hv⟩
      · obtain ⟨d, hd, _⟩ := h3 hr hv
        exact ⟨d, hd⟩
  · simp [parent?_dominatorTree_of_not_lt h, not_reaches_of_not_lt h]

theorem immediateDominator?_eq_some_iff (v d : Nat) :
    (g.dominatorTree entry).immediateDominator? v = some d ↔ g.IsImmediate entry d v := by
  have hentry : (g.dominatorTree entry).entry = entry := rfl
  rw [DominatorTree.immediateDominator?, hentry]
  by_cases hv : v = entry
  · -- the entry has no strict dominator
    rw [if_pos hv]
    constructor
    · intro hd
      simp at hd
    · rintro ⟨hne, hdom, _⟩
      rw [hv] at hne hdom
      exact absurd hdom.eq_entry hne
  rw [if_neg hv]
  by_cases h : entry < g.size
  · obtain ⟨-, h2, h3⟩ := parent?_dominatorTree h v
    constructor
    · intro hd
      by_cases hr : g.Reaches entry v
      · obtain ⟨e, he, himm⟩ := h3 hr hv
        obtain rfl : d = e := by simpa [he] using hd.symm
        exact himm
      · rw [h2 hr] at hd
        simp at hd
    · intro himm
      obtain ⟨e, he, himm'⟩ := h3 himm.2.1.reaches hv
      rw [he, himm.unique himm']
  · rw [parent?_dominatorTree_of_not_lt h]
    constructor
    · intro hd
      simp at hd
    · intro himm
      exact absurd himm.2.1.reaches (not_reaches_of_not_lt h v)

/-! ## Reading the tree upward -/

theorem size_dominatorTree (h : entry < g.size) : (g.dominatorTree entry).size = g.size := by
  obtain ⟨before, idom, heq, hres, -⟩ := exists_resolved h
  rw [heq, DominatorTree.size]
  simpa using hres.size

/-- The strict dominators of a vertex. -/
def StrictDominators (g : Digraph) (entry v : Nat) : Set Nat :=
  {a | a ≠ v ∧ g.Dominates entry a v}

theorem immediateDominator?_eq_none_iff (v : Nat) :
    (g.dominatorTree entry).immediateDominator? v = none ↔ v = entry ∨ ¬ g.Reaches entry v := by
  have hentry : (g.dominatorTree entry).entry = entry := rfl
  by_cases hv : v = entry
  · simp [DominatorTree.immediateDominator?, hentry, hv]
  have hreach : (g.dominatorTree entry).isReachable v = true ↔ g.Reaches entry v :=
    isReachable_iff v
  rw [DominatorTree.immediateDominator?, hentry, if_neg hv]
  simp only [hv, false_or, ← hreach, DominatorTree.isReachable]
  cases (g.dominatorTree entry).parent? v <;> simp

/-- With an immediate dominator the strict dominators are it and its own. -/
theorem mem_strictDominators_of_immediate {a d v : Nat} (h : g.IsImmediate entry d v) :
    a ∈ g.StrictDominators entry v ↔ a = d ∨ a ∈ g.StrictDominators entry d := by
  constructor
  · rintro ⟨hne, hdom⟩
    by_cases had : a = d
    · exact .inl had
    · exact .inr ⟨had, h.2.2 a hne hdom⟩
  · rintro (rfl | ⟨hne, hdom⟩)
    · exact ⟨h.1, h.2.1⟩
    · refine ⟨?_, hdom.trans h.2.1⟩
      rintro rfl
      exact hne (hdom.antisymm h.2.1)

/-- The vertices above `v` are its strict dominators, each listed once. -/
theorem above_spec {tree : List (Nat × Option Nat)} (ht : IsSearchTree g entry tree) (fuel : Nat)
    {v : Nat} (hv : v ∈ tree.map (·.1)) (hfuel : position tree v ≤ fuel) :
    (∀ a, a ∈ (g.dominatorTree entry).above fuel v ↔ a ∈ g.StrictDominators entry v) ∧
      ((g.dominatorTree entry).above fuel v).Nodup := by
  have hroot : ∀ a, a ∉ g.StrictDominators entry entry := fun a ha => ha.1 ha.2.eq_entry
  induction fuel generalizing v with
  | zero =>
    have hentry := ht.ancestor_mem (ht.root_ancestor hv) hv
    have hzero := ht.position_root hv
    obtain rfl : v = entry := position_inj hv (by omega)
    simp [DominatorTree.above, hroot]
  | succ fuel ih =>
    cases hd : (g.dominatorTree entry).immediateDominator? v with
    | none =>
      have hreach := (ht.mem_iff v).1 hv
      obtain rfl := ((immediateDominator?_eq_none_iff v).1 hd).resolve_right (not_not.2 hreach)
      simp [DominatorTree.above, hd, hroot]
    | some d =>
      have himm := (immediateDominator?_eq_some_iff v d).1 hd
      have hanc := ht.ancestor_of_dominates himm.2.1
      have hlt := ht.ancestor_lt hanc himm.1
      obtain ⟨hmem, hnodup⟩ := ih (ht.ancestor_mem hanc hv) (by omega)
      simp only [DominatorTree.above, hd, List.mem_cons, List.nodup_cons]
      refine ⟨fun a => ?_, fun hin => ?_, hnodup⟩
      · rw [hmem, mem_strictDominators_of_immediate himm]
      · exact ((hmem d).1 hin).1 rfl

theorem strictDominators_spec {v : Nat} (hv : g.Reaches entry v) :
    (∀ a, a ∈ (g.dominatorTree entry).strictDominators v ↔ a ∈ g.StrictDominators entry v) ∧
      ((g.dominatorTree entry).strictDominators v).Nodup := by
  have h := hv.left_lt
  have ht := spanningTree_isSearchTree h
  have hmem := (ht.mem_iff v).2 hv
  rw [DominatorTree.strictDominators, size_dominatorTree h]
  exact above_spec ht g.size hmem (Forest.Linked.position_lt_size ht hmem).le

theorem dominates_dominatorTree_iff (a b : Nat) :
    (g.dominatorTree entry).dominates a b = true ↔ g.Dominates entry a b := by
  simp only [DominatorTree.dominates, Bool.and_eq_true, Bool.or_eq_true, beq_iff_eq,
    List.contains_iff_mem, isReachable_iff]
  constructor
  · rintro ⟨⟨_, hb⟩, rfl | ha⟩
    · exact .refl hb
    · exact (((strictDominators_spec hb).1 a).1 ha).2
  · intro hdom
    refine ⟨⟨hdom.reaches_left, hdom.reaches⟩, ?_⟩
    by_cases hab : a = b
    · exact .inl hab
    · exact .inr (((strictDominators_spec hdom.reaches).1 a).2 ⟨hab, hdom⟩)

theorem depth?_dominatorTree {v : Nat} (hv : g.Reaches entry v) :
    (g.dominatorTree entry).depth? v = some (g.StrictDominators entry v).ncard := by
  obtain ⟨hmem, hnodup⟩ := strictDominators_spec hv
  have hset : g.StrictDominators entry v =
      ↑((g.dominatorTree entry).strictDominators v).toFinset := by
    ext a
    rw [← hmem, Finset.mem_coe, List.mem_toFinset]
  rw [DominatorTree.depth?, if_pos ((isReachable_iff v).2 hv), hset, Set.ncard_coe_finset,
    List.toFinset_card_of_nodup hnodup]

end Tree

/-- **The dominator tree is right.**  For every graph and every entry, in range or not: the tree
answers dominance by walks, its immediate dominator of a vertex is the strict dominator that all
strict dominators dominate, and the depth of a reachable vertex is the number of its strict
dominators. -/
theorem dominatorTree_correct (g : Digraph) (entry : Nat) :
    (∀ a b, (g.dominatorTree entry).dominates a b = true ↔ g.Dominates entry a b) ∧
    (∀ b, (g.dominatorTree entry).immediateDominator? b = none ↔
      b = entry ∨ ¬ g.Reaches entry b) ∧
    (∀ b d, (g.dominatorTree entry).immediateDominator? b = some d ↔
      d ∈ g.StrictDominators entry b ∧
        ∀ a ∈ g.StrictDominators entry b, a ≠ d → g.Dominates entry a d) ∧
    (∀ b, g.Reaches entry b →
      (g.dominatorTree entry).depth? b = some (g.StrictDominators entry b).ncard) := by
  refine ⟨dominates_dominatorTree_iff, immediateDominator?_eq_none_iff, fun b d => ?_,
    fun b hb => depth?_dominatorTree hb⟩
  rw [immediateDominator?_eq_some_iff]
  constructor
  · rintro ⟨hne, hdom, hall⟩
    exact ⟨⟨hne, hdom⟩, fun a ha _ => hall a ha.1 ha.2⟩
  · rintro ⟨⟨hne, hdom⟩, hall⟩
    refine ⟨hne, hdom, fun a ha hadom => ?_⟩
    by_cases had : a = d
    · rw [had]
      exact .refl hdom.reaches_left
    · exact hall a ⟨ha, hadom⟩ had

end Unroller.Digraph
