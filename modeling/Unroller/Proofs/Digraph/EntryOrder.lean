import Mathlib.Tactic
import Unroller.Proofs.Digraph.LeaveOrder

/-!
# The order in which vertices are entered

`visit` is a depth-first search as one writes it by recursion: it enters a vertex, searches from its
successors one after another, and goes on with the next vertex of its list.

* `map_fst_spanningTree`: the search behind the dominator tree enters the vertices in this order.
* `pushOrder_eq_preorder_onlyFirst`: the search that marks a vertex when it pushes it does so only
  in the graph that keeps, of all edges to a vertex, the one over which the vertex is pushed.
* `DepthFirst`: a test for such an order by triples of vertices, which no two orders of the same
  vertices pass (`DepthFirst.unique`).
* `entryOrders_exact`: so the two searches agree exactly when the order of the second one passes.
-/

namespace Unroller.Digraph

variable {g : Digraph} {marks : Marks} {start a b c d p v w x : Nat}
  {us vs order done rest : List Nat}

/-! ## Searching by recursion -/

/-- Searches from a list of vertices: the vertices entered, in order, and the marks afterwards. -/
def visit (g : Digraph) (marks : Marks) :
    (vertices : List Nat) → {r : List Nat × Marks // r.2.unmarked ≤ marks.unmarked}
  | [] => ⟨([], marks), le_rfl⟩
  | v :: vs =>
    if h : marks.isFresh v = true then
      let below := visit g (marks.mark v) (g.succs v)
      let beside := visit g below.1.2 vs
      ⟨(v :: (below.1.1 ++ beside.1.1), beside.1.2),
        (beside.2.trans below.2).trans (Nat.le_of_succ_le (Marks.unmarked_mark h).le)⟩
    else visit g marks vs
termination_by vertices => (marks.unmarked, vertices.length)
decreasing_by
  · have := Marks.unmarked_mark h
    exact Prod.Lex.left _ _ (by omega)
  · exact Prod.Lex.left _ _ (lt_of_le_of_lt below.2 (Nat.lt_of_succ_le (Marks.unmarked_mark h).le))
  · exact Prod.Lex.right _ (by simp)

/-- The vertices that a search from `vertices` enters. -/
def enteredFrom (g : Digraph) (marks : Marks) (vertices : List Nat) : List Nat :=
  (visit g marks vertices).1.1

/-- The marks after a search from `vertices`. -/
def marksAfter (g : Digraph) (marks : Marks) (vertices : List Nat) : Marks :=
  (visit g marks vertices).1.2

/-- The vertices reachable from `start` in the order in which a recursive depth-first search enters
them. -/
def preorder (g : Digraph) (start : Nat) : List Nat := g.enteredFrom (Marks.none g.size) [start]

theorem enteredFrom_nil : g.enteredFrom marks [] = [] := by simp [enteredFrom, visit]

theorem marksAfter_nil : g.marksAfter marks [] = marks := by simp [marksAfter, visit]

theorem enteredFrom_cons (h : marks.isFresh v = true) :
    g.enteredFrom marks (v :: vs) =
      v :: (g.enteredFrom (marks.mark v) (g.succs v) ++
        g.enteredFrom (g.marksAfter (marks.mark v) (g.succs v)) vs) := by
  simp [enteredFrom, marksAfter, visit, h]

theorem marksAfter_cons (h : marks.isFresh v = true) :
    g.marksAfter marks (v :: vs) =
      g.marksAfter (g.marksAfter (marks.mark v) (g.succs v)) vs := by
  simp [marksAfter, visit, h]

theorem enteredFrom_skip (h : ¬ marks.isFresh v = true) :
    g.enteredFrom marks (v :: vs) = g.enteredFrom marks vs := by
  simp [enteredFrom, visit, h]

theorem marksAfter_skip (h : ¬ marks.isFresh v = true) :
    g.marksAfter marks (v :: vs) = g.marksAfter marks vs := by
  simp [marksAfter, visit, h]

/-- A search from two lists is one from the first and then one from the second. -/
theorem enteredFrom_append (marks : Marks) (us vs : List Nat) :
    g.enteredFrom marks (us ++ vs) =
        g.enteredFrom marks us ++ g.enteredFrom (g.marksAfter marks us) vs ∧
      g.marksAfter marks (us ++ vs) = g.marksAfter (g.marksAfter marks us) vs := by
  induction us generalizing marks with
  | nil => simp [enteredFrom_nil, marksAfter_nil]
  | cons u us ih =>
    rw [List.cons_append]
    by_cases h : marks.isFresh u = true
    · rw [enteredFrom_cons h, marksAfter_cons h, enteredFrom_cons h, marksAfter_cons h]
      obtain ⟨hentered, hmarks⟩ := ih (g.marksAfter (marks.mark u) (g.succs u))
      simp [hentered, hmarks]
    · simpa only [enteredFrom_skip h, marksAfter_skip h] using ih marks

/-- So the successors of a vertex may as well be put before what is left to do. -/
theorem enteredFrom_cons_append (h : marks.isFresh v = true) :
    g.enteredFrom marks (v :: vs) = v :: g.enteredFrom (marks.mark v) (g.succs v ++ vs) := by
  rw [enteredFrom_cons h, (enteredFrom_append ..).1]

/-- What holds of a search when it holds of its two parts. -/
theorem visit_induction {P : Marks → List Nat → Prop} (nil : ∀ marks, P marks [])
    (skip : ∀ marks v vs, ¬ marks.isFresh v = true → P marks vs → P marks (v :: vs))
    (enter : ∀ marks v vs, marks.isFresh v = true → P (marks.mark v) (g.succs v) →
      P (g.marksAfter (marks.mark v) (g.succs v)) vs → P marks (v :: vs))
    (marks : Marks) (vs : List Nat) : P marks vs := by
  match vs with
  | [] => exact nil marks
  | v :: vs =>
    by_cases h : marks.isFresh v = true
    · exact enter marks v vs h (visit_induction nil skip enter _ _)
        (visit_induction nil skip enter _ _)
    · exact skip marks v vs h (visit_induction nil skip enter _ _)
termination_by (marks.unmarked, vs.length)
decreasing_by
  · have := Marks.unmarked_mark h
    exact Prod.Lex.left _ _ (by omega)
  · have := Marks.unmarked_mark h
    have := (visit g (marks.mark v) (g.succs v)).2
    exact Prod.Lex.left _ _ (by simp only [marksAfter]; omega)
  · exact Prod.Lex.right _ (by simp)

/-! ## Depth-first orders -/

/-- When `a` leads to a vertex listed after `b`, then `b` is found from a vertex after `a`, or from
`a` as an earlier successor. -/
def DepthFirst (g : Digraph) (order : List Nat) : Prop :=
  ∀ a b c, [a, b, c].Sublist order → c ∈ g.succs a →
    (b ∈ g.succs a ∧ (g.succs a).idxOf b < (g.succs a).idxOf c) ∨
      ∃ d, [a, d, b].Sublist order ∧ b ∈ g.succs d

theorem sublist_of_head_notMem (vs : List Nat) (h : (a :: us).Sublist (vs ++ rest)) (ha : a ∉ vs) :
    (a :: us).Sublist rest := by
  obtain ⟨l, r, heq, hl, hr⟩ := List.sublist_append_iff.1 h
  cases l with
  | nil => simpa [heq] using hr
  | cons x l =>
    obtain ⟨rfl, -⟩ := List.cons_eq_cons.1 heq
    exact absurd (hl.subset (List.mem_cons_self ..)) ha

theorem sublist_of_last_notMem (us vs : List Nat) (h : (us ++ [c]).Sublist (vs ++ rest))
    (hc : c ∉ rest) :
    (us ++ [c]).Sublist vs := by
  obtain ⟨l, r, heq, hl, hr⟩ := List.sublist_append_iff.1 h
  cases r using List.reverseRecOn with
  | nil => simpa [heq] using hl
  | append_singleton r x =>
    rw [← List.append_assoc] at heq
    obtain rfl : c = x := by simpa using (List.append_inj' heq rfl).2
    exact absurd (hr.subset (by simp)) hc

/-- What a search from `vertices` enters, and how. -/
structure Entering (g : Digraph) (marks : Marks) (vertices order : List Nat) (after : Marks) :
    Prop where
  origin : ∀ v ∈ order, marks.isFresh v = true
  fresh : ∀ v, after.isFresh v = true ↔ marks.isFresh v = true ∧ v ∉ order
  listed : ∀ v ∈ vertices, marks.isFresh v = true → v ∈ order
  closed : ∀ v ∈ order, ∀ w ∈ g.succs v, marks.isFresh w = true → w ∈ order
  nodup : order.Nodup
  /-- A vertex is found from an earlier one or is listed, and the listed ones keep their order. -/
  found : ∀ b ∈ order, (∃ d, [d, b].Sublist order ∧ b ∈ g.succs d) ∨
    b ∈ vertices ∧ ∀ c, [b, c].Sublist order → vertices.idxOf b < vertices.idxOf c
  deep : DepthFirst g order

theorem Entering.skip {after : Marks} (hv : ¬ marks.isFresh v = true)
    (h : Entering g marks vs order after) : Entering g marks (v :: vs) order after where
  __ := h
  listed := by
    intro u hu hfresh
    rcases List.mem_cons.1 hu with rfl | hu
    · exact absurd hfresh hv
    · exact h.listed u hu hfresh
  found := by
    have hne : ∀ u ∈ order, v ≠ u := fun u hu heq => hv (heq ▸ h.origin u hu)
    refine fun b hb => (h.found b hb).imp id fun ⟨hmem, hfirst⟩ =>
      ⟨List.mem_cons_of_mem _ hmem, fun c hbc => ?_⟩
    rw [List.idxOf_cons_ne _ (hne b hb), List.idxOf_cons_ne _ (hne c (hbc.subset (by simp)))]
    exact Nat.succ_lt_succ (hfirst c hbc)

/-! Entering `v` enters `inner` from its successors and then `rest` from what is left. -/

namespace Entering

variable {inner : List Nat} {between after : Marks}

theorem fresh_inner (hin : Entering g (marks.mark v) (g.succs v) inner between) {u : Nat}
    (hu : u ∈ inner) : marks.isFresh u = true ∧ u ≠ v :=
  Marks.isFresh_mark.1 (hin.origin u hu)

theorem fresh_rest (hin : Entering g (marks.mark v) (g.succs v) inner between)
    (hrest : Entering g between vs rest after) {u : Nat} (hu : u ∈ rest) :
    (marks.isFresh u = true ∧ u ≠ v) ∧ u ∉ inner := by
  have := (hin.fresh u).1 (hrest.origin u hu)
  rwa [Marks.isFresh_mark] at this

theorem fresh_between (hin : Entering g (marks.mark v) (g.succs v) inner between) {u : Nat}
    (hu : marks.isFresh u = true) (hnot : u ∉ v :: inner) : between.isFresh u = true := by
  rw [List.mem_cons, not_or] at hnot
  exact (hin.fresh u).2 ⟨Marks.isFresh_mark.2 ⟨hu, hnot.1⟩, hnot.2⟩

/-- What the first part leads to is entered there. -/
theorem closed_inner (hin : Entering g (marks.mark v) (g.succs v) inner between) {u w : Nat}
    (hu : u ∈ v :: inner) (hw : w ∈ g.succs u) (hfresh : marks.isFresh w = true) (hne : w ≠ v) :
    w ∈ inner := by
  have hfresh := Marks.isFresh_mark.2 ⟨hfresh, hne⟩
  rcases List.mem_cons.1 hu with rfl | hu
  · exact hin.listed w hw hfresh
  · exact hin.closed u hu w hw hfresh

theorem origin_enter (hv : marks.isFresh v = true)
    (hin : Entering g (marks.mark v) (g.succs v) inner between)
    (hrest : Entering g between vs rest after) {u : Nat} (hu : u ∈ v :: (inner ++ rest)) :
    marks.isFresh u = true := by
  rcases List.mem_cons.1 hu with rfl | hu
  · exact hv
  · rcases List.mem_append.1 hu with hu | hu
    · exact (hin.fresh_inner hu).1
    · exact (hin.fresh_rest hrest hu).1.1

theorem nodup_enter (hin : Entering g (marks.mark v) (g.succs v) inner between)
    (hrest : Entering g between vs rest after) : (v :: (inner ++ rest)).Nodup := by
  refine List.nodup_cons.2 ⟨fun hmem => ?_, List.nodup_append.2 ⟨hin.nodup, hrest.nodup, ?_⟩⟩
  · rcases List.mem_append.1 hmem with hmem | hmem
    · exact (hin.fresh_inner hmem).2 rfl
    · exact (hin.fresh_rest hrest hmem).1.2 rfl
  · rintro u hu _ hw rfl
    exact (hin.fresh_rest hrest hw).2 hu

theorem found_enter (hin : Entering g (marks.mark v) (g.succs v) inner between)
    (hrest : Entering g between vs rest after) (hb : b ∈ v :: (inner ++ rest)) :
    (∃ d, [d, b].Sublist (v :: (inner ++ rest)) ∧ b ∈ g.succs d) ∨ b ∈ v :: vs ∧
      ∀ c, [b, c].Sublist (v :: (inner ++ rest)) → (v :: vs).idxOf b < (v :: vs).idxOf c := by
  rcases List.mem_cons.1 hb with rfl | hb
  · refine .inr ⟨List.mem_cons_self .., fun c hbc => ?_⟩
    have hne : b ≠ c := by
      rintro rfl
      exact absurd (hbc.nodup (hin.nodup_enter hrest)) (by simp)
    rw [List.idxOf_cons_self, List.idxOf_cons_ne _ hne]
    exact Nat.succ_pos _
  rcases List.mem_append.1 hb with hb | hb
  · left
    rcases hin.found b hb with ⟨d, hdb, hd⟩ | ⟨hd, -⟩
    · exact ⟨d, (hdb.trans (List.sublist_append_left ..)).cons v, hd⟩
    · exact ⟨v, (List.singleton_sublist.2 (List.mem_append_left _ hb)).cons_cons v, hd⟩
  · rcases hrest.found b hb with ⟨d, hdb, hd⟩ | ⟨hmem, hfirst⟩
    · exact .inl ⟨d, (hdb.trans (List.sublist_append_right ..)).cons v, hd⟩
    · refine .inr ⟨List.mem_cons_of_mem _ hmem, fun c hbc => ?_⟩
      obtain ⟨⟨-, hbv⟩, hbin⟩ := hin.fresh_rest hrest hb
      have hbc : [b, c].Sublist rest :=
        sublist_of_head_notMem (v :: inner) hbc (List.not_mem_cons_of_ne_of_not_mem hbv hbin)
      have hc : c ∈ rest := hbc.subset (by simp)
      have hcv := (hin.fresh_rest hrest hc).1.2
      rw [List.idxOf_cons_ne _ hbv.symm, List.idxOf_cons_ne _ hcv.symm]
      exact Nat.succ_lt_succ (hfirst c hbc)

/-- The first part is depth-first, and `v` finds its successors in their order. -/
theorem deep_inner (hin : Entering g (marks.mark v) (g.succs v) inner between) :
    DepthFirst g (v :: inner) := by
  intro a b c habc hac
  by_cases hav : a = v
  · subst hav
    have hbc : [b, c].Sublist inner := by simpa using habc
    rcases hin.found b (hbc.subset (by simp)) with ⟨d, hdb, hd⟩ | ⟨hb, hfirst⟩
    · exact .inr ⟨d, hdb.cons_cons a, hd⟩
    · exact .inl ⟨hb, hfirst c hbc⟩
  · have habc : [a, b, c].Sublist inner := sublist_of_head_notMem [v] habc (by simpa using hav)
    exact (hin.deep a b c habc hac).imp id fun ⟨d, hadb, hd⟩ => ⟨d, hadb.cons v, hd⟩

theorem deep_enter (hv : marks.isFresh v = true)
    (hin : Entering g (marks.mark v) (g.succs v) inner between)
    (hrest : Entering g between vs rest after) : DepthFirst g (v :: (inner ++ rest)) := by
  intro a b c habc hac
  by_cases hmem : a ∈ v :: inner
  · -- all three are entered in the first part
    have hnodup := hin.nodup_enter hrest
    have hc : c ∈ v :: (inner ++ rest) := habc.subset (by simp)
    have hcv : c ≠ v := by
      rintro rfl
      have := idxOf_lt_of_sublist hnodup ((List.sublist_cons_self _ _).trans habc)
      simp at this
    have hcin := hin.closed_inner hmem hac (hin.origin_enter hv hrest hc) hcv
    have habc : [a, b, c].Sublist (v :: inner) :=
      sublist_of_last_notMem [a, b] (v :: inner) habc fun hc => (hin.fresh_rest hrest hc).2 hcin
    exact (hin.deep_inner a b c habc hac).imp id fun ⟨d, hadb, hd⟩ =>
      ⟨d, hadb.trans ((List.sublist_append_left inner rest).cons_cons v), hd⟩
  · have habc : [a, b, c].Sublist rest := sublist_of_head_notMem (v :: inner) habc hmem
    exact (hrest.deep a b c habc hac).imp id fun ⟨d, hadb, hd⟩ =>
      ⟨d, (hadb.trans (List.sublist_append_right ..)).cons v, hd⟩

theorem enter (hv : marks.isFresh v = true)
    (hin : Entering g (marks.mark v) (g.succs v) inner between)
    (hrest : Entering g between vs rest after) :
    Entering g marks (v :: vs) (v :: (inner ++ rest)) after where
  origin := fun u hu => hin.origin_enter hv hrest hu
  fresh := by
    intro u
    rw [hrest.fresh, hin.fresh, Marks.isFresh_mark]
    simp only [List.mem_cons, List.mem_append]
    tauto
  listed := by
    intro u hu hfresh
    rcases List.mem_cons.1 hu with rfl | hu
    · exact List.mem_cons_self ..
    · by_cases hmem : u ∈ v :: inner
      · exact List.mem_append_left rest hmem
      · exact List.mem_append_right (v :: inner)
          (hrest.listed u hu (hin.fresh_between hfresh hmem))
  closed := by
    intro u hu w hw hfresh
    by_cases hwin : w ∈ v :: inner
    · exact List.mem_append_left rest hwin
    · have hu : u ∈ rest := by
        refine (List.mem_append.1 (show u ∈ (v :: inner) ++ rest from hu)).resolve_left ?_
        intro hmem
        rw [List.mem_cons, not_or] at hwin
        exact hwin.2 (hin.closed_inner hmem hw hfresh hwin.1)
      exact List.mem_append_right (v :: inner)
        (hrest.closed u hu w hw (hin.fresh_between hfresh hwin))
  nodup := hin.nodup_enter hrest
  found := fun b hb => hin.found_enter hrest hb
  deep := hin.deep_enter hv hrest

end Entering

/-- **A recursive search** enters each fresh vertex that it finds once, in a depth-first order. -/
theorem entering_visit (g : Digraph) (marks : Marks) (vs : List Nat) :
    Entering g marks vs (g.enteredFrom marks vs) (g.marksAfter marks vs) := by
  refine visit_induction (g := g) (P := fun marks vs =>
    Entering g marks vs (g.enteredFrom marks vs) (g.marksAfter marks vs)) ?nil ?skip ?enter marks vs
  case nil =>
    intro marks
    rw [enteredFrom_nil, marksAfter_nil]
    constructor <;> simp [DepthFirst]
  case skip =>
    intro marks v vs hv h
    rw [enteredFrom_skip hv, marksAfter_skip hv]
    exact h.skip hv
  case enter =>
    intro marks v vs hv hin hrest
    rw [enteredFrom_cons hv, marksAfter_cons hv]
    exact Entering.enter hv hin hrest

/-! ## The spanning tree -/

/-- Vertices that are not fresh may be left out. -/
theorem enteredFrom_filter (keep : Nat → Bool)
    (h : ∀ v ∈ vs, keep v = false → ¬ marks.isFresh v = true) :
    g.enteredFrom marks (vs.filter keep) = g.enteredFrom marks vs ∧
      g.marksAfter marks (vs.filter keep) = g.marksAfter marks vs := by
  induction vs generalizing marks with
  | nil => exact ⟨rfl, rfl⟩
  | cons v vs ih =>
    have hrest := fun u hu => h u (List.mem_cons_of_mem _ hu)
    by_cases hv : marks.isFresh v = true
    · have hkeep : keep v = true := by
        by_contra hkeep
        exact h v (List.mem_cons_self ..) (by simpa using hkeep) hv
      have hafter := @ih (g.marksAfter (marks.mark v) (g.succs v)) fun u hu hk hfresh =>
        hrest u hu hk (Marks.isFresh_mark.1 (((entering_visit ..).fresh u).1 hfresh).1).1
      rw [List.filter_cons_of_pos hkeep, enteredFrom_cons hv, enteredFrom_cons hv,
        marksAfter_cons hv, marksAfter_cons hv, hafter.1, hafter.2]
      exact ⟨rfl, rfl⟩
    · rw [enteredFrom_skip hv, marksAfter_skip hv, List.filter_cons]
      split
      · rw [enteredFrom_skip hv, marksAfter_skip hv]
        exact ih hrest
      · exact ih hrest

theorem enteredFrom_filter_append (keep : Nat → Bool)
    (h : ∀ v ∈ vs, keep v = false → ¬ marks.isFresh v = true) :
    g.enteredFrom marks (vs.filter keep ++ rest) = g.enteredFrom marks (vs ++ rest) := by
  obtain ⟨hentered, hafter⟩ := enteredFrom_filter keep h
  rw [(enteredFrom_append ..).1, (enteredFrom_append ..).1, hentered, hafter]

theorem map_fst_spanningTreeFrom (marks : Marks) (tree stack : List (Nat × Option Nat)) :
    (spanningTreeFrom g marks tree stack).map (·.1) =
      tree.reverse.map (·.1) ++ g.enteredFrom marks (stack.map (·.1)) := by
  match stack with
  | [] => simp [spanningTreeFrom, enteredFrom_nil]
  | (v, q) :: stack =>
    rw [spanningTreeFrom, List.map_cons]
    by_cases h : marks.isFresh v = true
    · rw [if_pos h, map_fst_spanningTreeFrom, enteredFrom_cons_append h]
      simp only [List.map_append, List.map_map, Function.comp_def, List.map_id', List.reverse_cons,
        List.map_cons, List.map_nil, List.append_assoc, List.singleton_append]
      rw [enteredFrom_filter_append _ fun w _ hw => by simpa using hw]
    · rw [if_neg h, map_fst_spanningTreeFrom, enteredFrom_skip h]
termination_by (marks.unmarked, stack.length)
decreasing_by
  · have := Marks.unmarked_mark h
    exact Prod.Lex.left _ _ (by omega)
  · exact Prod.Lex.right _ (by simp)

/-- **The spanning tree** lists the vertices in the order of the recursive search. -/
theorem map_fst_spanningTree (g : Digraph) (start : Nat) :
    (g.spanningTree start).map (·.1) = g.preorder start :=
  map_fst_spanningTreeFrom _ [] _

theorem mem_preorder : v ∈ g.preorder start ↔ g.Reaches start v := by
  rw [← map_fst_spanningTree]
  by_cases h : start < g.size
  · exact (spanningTree_isSearchTree h).mem_iff v
  · simp only [spanningTree_eq_nil h, List.map_nil, List.not_mem_nil, false_iff]
    exact not_reaches_of_not_lt h v

theorem nodup_preorder (g : Digraph) (start : Nat) : (g.preorder start).Nodup :=
  (entering_visit ..).nodup

/-! ## Marking when pushed -/

/-- The graph that keeps, of the edges to a vertex, those from the first vertex of `order` that
leads to it, and of equal ones the last. -/
def onlyFirst (g : Digraph) (order : List Nat) : Digraph where
  size := g.size
  succs v := (g.succs v).dedup.filter fun w =>
    order.find? (fun u => decide (w ∈ g.succs u)) == some v

/-- What goes onto the stack are the fresh vertices, of equal ones the last. -/
theorem pushFresh_snd (marks : Marks) (stack vertices : List Nat) :
    (pushFresh marks stack vertices).2 = vertices.dedup.filter marks.isFresh ++ stack := by
  induction vertices with
  | nil => rfl
  | cons v vs ih =>
    have hf := @isFresh_pushFresh marks v stack vs
    simp only [pushFresh, List.foldr_cons] at ih hf ⊢
    by_cases hmem : v ∈ vs
    · rw [if_neg (by simp [hf, hmem]), List.dedup_cons_of_mem hmem, ih]
    · rw [List.dedup_cons_of_notMem hmem, List.filter_cons]
      by_cases hv : marks.isFresh v = true
      · rw [if_pos (by simp [hf, hmem, hv]), if_pos hv, ih]
        rfl
      · rw [if_neg (by simp [hf, hv]), if_neg hv, ih]

/-- A state of the two searches: the vertices in `done` have come off the stack, and the fresh ones
are those that none of them leads to.  `reached` holds the marks of the recursive search. -/
structure Pushing (g : Digraph) (start : Nat) (done : List Nat) (marks reached : Marks)
    (stack : List Nat) : Prop where
  fresh : ∀ w, marks.isFresh w = true ↔ w < g.size ∧ w ≠ start ∧ ∀ u ∈ done, w ∉ g.succs u
  entered : ∀ w, reached.isFresh w = true ↔ w < g.size ∧ w ∉ done
  begun : start ∈ done ∨ stack = [start]
  met : ∀ u ∈ done ++ stack, ¬ marks.isFresh u = true
  lt_size : ∀ v ∈ stack, v < g.size
  nodup : (done ++ stack).Nodup

namespace Pushing

variable {reached : Marks} {stack : List Nat}

theorem initial (h : start < g.size) :
    Pushing g start [] ((Marks.none g.size).mark start) (Marks.none g.size) [start] where
  fresh := by simp [Marks.isFresh_mark, Marks.isFresh_none]
  entered := by simp [Marks.isFresh_none]
  begun := .inr rfl
  met := by simp [Marks.isFresh_mark]
  lt_size := by simpa using h
  nodup := List.nodup_singleton _

theorem step (h : Pushing g start done marks reached (v :: stack)) :
    Pushing g start (done ++ [v]) (pushFresh marks stack (g.succs v)).1 (reached.mark v)
      (pushFresh marks stack (g.succs v)).2 := by
  have hnodup := List.nodup_append.1 h.nodup
  have hv : v ∉ stack := (List.nodup_cons.1 hnodup.2.1).1
  -- what has been found is not pushed again
  have hnew : ∀ u ∈ done ++ [v], u ∉ (pushFresh marks stack (g.succs v)).2 := by
    intro u hu hmem
    rcases mem_pushFresh.1 hmem with hold | ⟨-, hfresh⟩
    · rcases List.mem_append.1 hu with hu | hu
      · exact hnodup.2.2 u hu u (List.mem_cons_of_mem _ hold) rfl
      · obtain rfl : u = v := by simpa using hu
        exact hv hold
    · exact h.met u (by simp only [List.mem_append, List.mem_cons] at hu ⊢; tauto) hfresh
  refine
    { fresh := fun w => ?fresh
      entered := fun w => ?entered
      begun := .inl ?begun
      met := ?met
      lt_size := ?lt_size
      nodup := ?nodup }
  case fresh =>
    rw [isFresh_pushFresh, h.fresh]
    simp only [List.mem_append, List.mem_singleton, or_imp, forall_and, forall_eq]
    tauto
  case entered =>
    rw [Marks.isFresh_mark, h.entered]
    simp only [List.mem_append, List.mem_singleton]
    tauto
  case begun =>
    rcases h.begun with hs | hs
    · exact List.mem_append_left _ hs
    · obtain ⟨rfl, -⟩ := List.cons_eq_cons.1 hs
      simp
  case met =>
    intro u hu hfresh
    obtain ⟨hfresh, hnot⟩ := isFresh_pushFresh.1 hfresh
    have hmet := fun hmem => h.met u hmem hfresh
    simp only [List.mem_append, List.mem_cons, mem_pushFresh, List.not_mem_nil] at hu hmet
    tauto
  case lt_size =>
    intro u hu
    rcases mem_pushFresh.1 hu with hu | ⟨-, hu⟩
    · exact h.lt_size u (List.mem_cons_of_mem _ hu)
    · exact ((h.fresh u).1 hu).1
  case nodup =>
    have hstack : (pushFresh marks stack (g.succs v)).2.Nodup :=
      nodup_pushFresh (List.nodup_cons.1 hnodup.2.1).2 fun u hu => h.met u (by simp [hu])
    have hdone : (done ++ [v]).Nodup := h.nodup.sublist
      ((List.singleton_sublist.2 (List.mem_cons_self ..)).append_left done)
    exact List.nodup_append.2 ⟨hdone, hstack, fun u hu w hw heq => hnew u hu (heq ▸ hw)⟩

/-- The edges kept from a vertex that comes off the stack are those that it pushes, up to vertices
entered before. -/
theorem enteredFrom_succs (h : Pushing g start done marks reached (v :: stack))
    (horder : order = done ++ v :: rest) :
    (g.onlyFirst order).enteredFrom (reached.mark v) ((g.onlyFirst order).succs v ++ stack) =
      (g.onlyFirst order).enteredFrom (reached.mark v)
        (pushFresh marks stack (g.succs v)).2 := by
  have hv : v ∉ done := fun hmem =>
    (List.nodup_append.1 h.nodup).2.2 v hmem v (List.mem_cons_self ..) rfl
  -- `v` comes first where nothing in `done` leads
  have hfirst : ∀ w ∈ g.succs v, order.find? (fun u => decide (w ∈ g.succs u)) = some v ↔
      ∀ u ∈ done, w ∉ g.succs u := by
    intro w hw
    rw [horder, List.find?_append]
    cases hfind : done.find? fun u => decide (w ∈ g.succs u) with
    | none => simpa [hw] using hfind
    | some u =>
      have hu := List.mem_of_find?_eq_some hfind
      have hwu : w ∈ g.succs u := by simpa using List.find?_some hfind
      simp only [Option.some_or, Option.some.injEq]
      exact ⟨fun heq => absurd (heq ▸ hu) hv, fun hnot => absurd hwu (hnot u hu)⟩
  have hkept : (g.succs v).dedup.filter marks.isFresh =
      ((g.onlyFirst order).succs v).filter marks.isFresh := by
    rw [onlyFirst, List.filter_filter]
    refine List.filter_congr fun w hw => ?_
    rw [List.mem_dedup] at hw
    rw [Bool.eq_iff_iff, Bool.and_eq_true, beq_iff_eq, hfirst w hw]
    exact ⟨fun hfresh => ⟨hfresh, ((h.fresh w).1 hfresh).2.2⟩, fun hand => hand.1⟩
  rw [pushFresh_snd, hkept]
  refine (enteredFrom_filter_append _ fun w hw hstale hfresh => ?_).symm
  obtain ⟨hfresh, hne⟩ := Marks.isFresh_mark.1 hfresh
  obtain ⟨hlt, hdone⟩ := (h.entered w).1 hfresh
  simp only [onlyFirst, List.mem_filter, List.mem_dedup, beq_iff_eq] at hw
  have hnot : ¬ marks.isFresh w = true := by simp [hstale]
  refine hnot ((h.fresh w).2 ⟨hlt, ?_, (hfirst w hw.1).1 hw.2⟩)
  rintro rfl
  rcases h.begun with hs | hs
  · exact hdone hs
  · exact hne (List.cons_eq_cons.1 hs).1.symm

theorem pushOrderFrom_eq (h : Pushing g start done marks reached stack)
    (horder : order = done ++ g.pushOrderFrom marks stack) :
    g.pushOrderFrom marks stack = (g.onlyFirst order).enteredFrom reached stack := by
  fun_induction pushOrderFrom g marks stack generalizing done reached with
  | case1 marks => rw [enteredFrom_nil]
  | case2 marks v stack next =>
    rename_i ih
    have hv : reached.isFresh v = true := by
      refine (h.entered v).2 ⟨h.lt_size v (List.mem_cons_self ..), fun hmem => ?_⟩
      exact (List.nodup_append.1 h.nodup).2.2 v hmem v (List.mem_cons_self ..) rfl
    rw [enteredFrom_cons_append hv, h.enteredFrom_succs horder]
    exact congrArg (v :: ·) (ih h.step (by simpa using horder))

end Pushing

/-- **The push order** is the order of a recursive search of the graph that keeps, of all edges to a
vertex, only the one over which it is pushed. -/
theorem pushOrder_eq_preorder_onlyFirst (g : Digraph) (start : Nat) :
    g.pushOrder start = (g.onlyFirst (g.pushOrder start)).preorder start := by
  by_cases h : start < g.size
  · rw [preorder, pushOrder, if_pos h]
    exact (Pushing.initial h).pushOrderFrom_eq rfl
  · have hnone : g.pushOrder start = [] := by rw [pushOrder, if_neg h]
    rw [hnone, ← map_fst_spanningTree, spanningTree_eq_nil (g := g.onlyFirst []) h]
    rfl

/-! ## One order only -/

/-- All vertices but `start` are found from an earlier one. -/
def Grown (g : Digraph) (start : Nat) (order : List Nat) : Prop :=
  ∀ v ∈ order, v = start ∨ ∃ p, [p, v].Sublist order ∧ v ∈ g.succs p

/-- `a` is the last vertex of `done` that leads to `v`. -/
structure Latest (g : Digraph) (done : List Nat) (v a : Nat) : Prop where
  mem : a ∈ done
  edge : v ∈ g.succs a
  last : ∀ e ∈ done, v ∈ g.succs e → done.idxOf e ≤ done.idxOf a

theorem exists_latest (hp : p ∈ done) (hv : v ∈ g.succs p) : ∃ a, Latest g done v a := by
  obtain ⟨a, ha, hmax⟩ := Finset.exists_max_image
    (done.toFinset.filter fun e => v ∈ g.succs e) done.idxOf ⟨p, by simp [hp, hv]⟩
  simp only [Finset.mem_filter, List.mem_toFinset] at ha hmax
  exact ⟨a, ha.1, ha.2, fun e he hve => hmax e ⟨he, hve⟩⟩

theorem Grown.preorder (g : Digraph) (start : Nat) : Grown g start (g.preorder start) := by
  intro v hv
  rcases (entering_visit g _ [start]).found v hv with ⟨d, hdv, hd⟩ | ⟨hmem, -⟩
  · exact .inr ⟨d, hdv, hd⟩
  · exact .inl (by simpa using hmem)

theorem Grown.pushOrder (g : Digraph) (start : Nat) : Grown g start (g.pushOrder start) := by
  intro v hv
  have hgrown := Grown.preorder (g.onlyFirst (g.pushOrder start)) start
  rw [← pushOrder_eq_preorder_onlyFirst] at hgrown
  refine (hgrown v hv).imp id fun ⟨p, hpv, hp⟩ => ⟨p, hpv, ?_⟩
  exact List.mem_dedup.1 (List.mem_filter.1 hp).1

/-- The vertex at some place was found from one before, unless it is the first one. -/
theorem Grown.exists_latest (h : Grown g start (done ++ v :: rest))
    (hn : (done ++ v :: rest).Nodup) (hv : v ≠ start) : ∃ a, Latest g done v a := by
  obtain ⟨p, hpv, hp⟩ := (h v (by simp)).resolve_left hv
  refine Digraph.exists_latest (p := p) ?_ hp
  by_contra hnot
  have hpv := sublist_of_head_notMem done hpv hnot
  have hn := (List.nodup_append.1 hn).2.1
  have hlt := idxOf_lt_of_sublist hn hpv
  simp at hlt

/-- In a depth-first order the next vertex is one whose last predecessor is as late as possible, and
of several the first successor of that. -/
theorem DepthFirst.latest (h : DepthFirst g (done ++ w :: rest))
    (hn : (done ++ w :: rest).Nodup) (hx : x ∈ rest) (ha : Latest g done x a)
    (hb : Latest g done w b) :
    done.idxOf a < done.idxOf b ∨ a = b ∧ (g.succs a).idxOf w < (g.succs a).idxOf x := by
  have haw : [a, w, x].Sublist (done ++ w :: rest) :=
    (List.singleton_sublist.2 ha.mem).append ((List.singleton_sublist.2 hx).cons_cons w)
  have hw : w ∉ done := fun hmem =>
    (List.nodup_append.1 hn).2.2 w hmem w (List.mem_cons_self ..) rfl
  rcases h a w x haw ha.edge with ⟨hwa, hlt⟩ | ⟨d, hadw, hwd⟩
  · rcases (hb.last a ha.mem hwa).lt_or_eq with hless | heq
    · exact .inl hless
    · exact .inr ⟨(List.idxOf_inj ha.mem).1 heq, hlt⟩
  · left
    have had : [a, d].Sublist done := by
      have hwrest : w ∉ rest := (List.nodup_cons.1 (List.nodup_append.1 hn).2.1).1
      have hlast : ([a, d] ++ [w]).Sublist (done ++ [w]) :=
        sublist_of_last_notMem [a, d] (done ++ [w]) (by simpa using hadw) hwrest
      exact (List.append_sublist_append_right [w]).1 hlast
    have hd : d ∈ done := had.subset (by simp)
    exact lt_of_lt_of_le (idxOf_lt_of_sublist (List.nodup_append.1 hn).1 had) (hb.last d hd hwd)

/-- Lists of one length are equal when the items after each common beginning are. -/
theorem eq_of_next_eq {one two : List Nat} (hlen : one.length = two.length)
    (h : ∀ done w x r s, one = done ++ w :: r → two = done ++ x :: s → w = x) : one = two := by
  induction one generalizing two with
  | nil => exact (List.length_eq_zero_iff.1 hlen.symm).symm
  | cons w one ih =>
    cases two with
    | nil => simp at hlen
    | cons x two =>
      obtain rfl := h [] w x one two rfl rfl
      refine congrArg (w :: ·) (ih (by simpa using hlen) fun done y z r s hr hs => ?_)
      exact h (w :: done) y z r s (by rw [hr]; rfl) (by rw [hs]; rfl)

/-- A grown order begins with the start, -/
theorem Grown.head_eq (h : Grown g start (v :: rest)) (hn : (v :: rest).Nodup) : v = start := by
  refine (h v (List.mem_cons_self ..)).resolve_right fun ⟨p, hpv, _⟩ => ?_
  have hlt := idxOf_lt_of_sublist hn hpv
  simp at hlt

/-- and only with it. -/
theorem Grown.ne_start (h : Grown g start (v :: done ++ w :: rest))
    (hn : (v :: done ++ w :: rest).Nodup) : w ≠ start := by
  rintro rfl
  rw [h.head_eq hn] at hn
  simp at hn

/-- What stands next in one of two lists of the same items stands later in the other. -/
theorem mem_of_next_ne {r s : List Nat} (hmem : ∀ v, v ∈ done ++ w :: r ↔ v ∈ done ++ x :: s)
    (hn : (done ++ x :: s).Nodup) (hne : w ≠ x) : x ∈ r := by
  have hx : x ∉ done := fun hx =>
    (List.nodup_append.1 hn).2.2 x hx x (List.mem_cons_self ..) rfl
  have hin : x ∈ done ++ w :: r := (hmem x).2 (by simp)
  simpa [hx, hne.symm] using hin

/-- **There is one depth-first order only**: had two orders different vertices `w` and `x` after
what they have in common, then each of the two would be found later than the other. -/
theorem DepthFirst.unique {one two : List Nat} (hmem : ∀ v, v ∈ one ↔ v ∈ two)
    (hone : one.Nodup) (htwo : two.Nodup) (gone : Grown g start one) (gtwo : Grown g start two)
    (done : DepthFirst g one) (dtwo : DepthFirst g two) : one = two := by
  refine eq_of_next_eq ((List.perm_ext_iff_of_nodup hone htwo).2 hmem).length_eq
    fun common w x r s h1 h2 => ?_
  subst h1 h2
  by_contra hne
  have hx : x ∈ r := mem_of_next_ne hmem htwo hne
  have hw : w ∈ s := mem_of_next_ne (fun v => (hmem v).symm) hone (Ne.symm hne)
  cases common with
  | nil => exact hne ((gone.head_eq hone).trans (gtwo.head_eq htwo).symm)
  | cons v common =>
    obtain ⟨a, ha⟩ := gone.exists_latest hone (gone.ne_start hone)
    obtain ⟨b, hb⟩ := gtwo.exists_latest htwo (gtwo.ne_start htwo)
    have h1 := done.latest hone hx hb ha
    have h2 := dtwo.latest htwo hw ha hb
    rcases h1 with h1 | ⟨rfl, h1⟩
    · rcases h2 with h2 | ⟨rfl, h2⟩ <;> omega
    · rcases h2 with h2 | ⟨-, h2⟩ <;> omega

/-! ## The two orders -/

/-- **The orders of the two searches.**  The search behind the dominator tree enters and numbers the
vertices in the order of the recursive search.  The search that marks a vertex when it pushes it
lists the same vertices, each once; it lists them in that order for the graph that keeps, of all
edges to a vertex, the one over which it is pushed, and for the graph itself exactly when its order
is a depth-first one. -/
theorem entryOrders_exact (g : Digraph) (start : Nat) :
    (g.spanningTree start).map (·.1) = g.preorder start ∧
      (∀ v ∈ g.preorder start,
        (g.numbering (g.spanningTree start)).getD v 0 = (g.preorder start).idxOf v + 1) ∧
      (g.pushOrder start).Perm (g.preorder start) ∧
      g.pushOrder start = (g.onlyFirst (g.pushOrder start)).preorder start ∧
      (g.pushOrder start = g.preorder start ↔ DepthFirst g (g.pushOrder start)) := by
  have hmem : ∀ v, v ∈ g.pushOrder start ↔ v ∈ g.preorder start := fun v => by
    rw [mem_pushOrder, mem_preorder]
  have hdeep : DepthFirst g (g.preorder start) := (entering_visit ..).deep
  refine ⟨map_fst_spanningTree g start, fun v hv => ?_,
    (List.perm_ext_iff_of_nodup (nodup_pushOrder start) (nodup_preorder g start)).2 hmem,
    pushOrder_eq_preorder_onlyFirst g start, fun heq => heq ▸ hdeep, fun h => ?_⟩
  · have hstart : start < g.size := (mem_preorder.1 hv).left_lt
    rw [← map_fst_spanningTree] at hv ⊢
    exact numbering_eq (spanningTree_isSearchTree hstart) hv
  · exact h.unique hmem (nodup_pushOrder start) (nodup_preorder g start)
      (Grown.pushOrder g start) (Grown.preorder g start) hdeep

/-- Four vertices: `0` leads to the other three, and `1` leads to the last of them too. -/
def shortcut : Digraph := ofEdges 4 [(0, 1), (0, 2), (0, 3), (1, 3)]

/-- A vertex that waits on the stack is not moved when it is found again from a deeper one. -/
theorem shortcut_orders :
    shortcut.pushOrder 0 = [0, 1, 2, 3] ∧ shortcut.preorder 0 = [0, 1, 3, 2] := by
  constructor <;> cbv

end Unroller.Digraph
