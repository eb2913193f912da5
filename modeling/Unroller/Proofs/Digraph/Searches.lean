import Mathlib.Tactic
import Unroller.Proofs.Digraph.SearchTree

/-!
# What the searches find

Each search lists or marks exactly what can be reached.

* `mem_pushOrder`, `nodup_pushOrder`: marking when pushed lists each reachable vertex once, in an
  order that depends on their successors only (`pushOrder_congr`).
* `mem_reversePostorder`, `nodup_reversePostorder`: marking when entered lists each reachable vertex
  once, too.
* `flood_marks_stack`, `flood_closed`, `flood_induction`: flooding marks its stack, is closed under
  edges among the vertices it marks, and marks nothing that is not forced.
-/

namespace Unroller.Digraph

variable {g : Digraph} {marks : Marks} {v w x : Nat}

/-! ## Marking when pushed -/

section pushFresh

variable {stack vertices : List Nat}

@[simp] theorem size_pushFresh : (pushFresh marks stack vertices).1.size = marks.size := by
  induction vertices with
  | nil => rfl
  | cons v vs ih =>
    simp only [pushFresh, List.foldr_cons] at ih ⊢
    split <;> simp [ih]

theorem isFresh_pushFresh :
    (pushFresh marks stack vertices).1.isFresh w = true ↔
      marks.isFresh w = true ∧ w ∉ vertices := by
  induction vertices with
  | nil => simp [pushFresh]
  | cons v vs ih =>
    simp only [pushFresh, List.foldr_cons] at ih ⊢
    split
    case isTrue h =>
      rw [Marks.isFresh_mark, ih]
      simp only [List.mem_cons]
      tauto
    case isFalse h =>
      by_cases hw : w = v
      · subst hw
        rw [ih] at h ⊢
        simp only [List.mem_cons]
        tauto
      · rw [ih]
        simp [hw]

theorem mem_pushFresh :
    w ∈ (pushFresh marks stack vertices).2 ↔
      w ∈ stack ∨ (w ∈ vertices ∧ marks.isFresh w = true) := by
  induction vertices with
  | nil => simp [pushFresh]
  | cons v vs ih =>
    have hf := @isFresh_pushFresh marks v stack vs
    simp only [pushFresh, List.foldr_cons] at ih hf ⊢
    split
    case isTrue h =>
      rw [hf] at h
      simp only [List.mem_cons, ih]
      constructor
      · rintro (rfl | hw | ⟨hw, hw'⟩)
        · exact .inr ⟨.inl rfl, h.1⟩
        · exact .inl hw
        · exact .inr ⟨.inr hw, hw'⟩
      · tauto
    case isFalse h =>
      rw [ih]
      rw [hf] at h
      simp only [List.mem_cons]
      constructor
      · tauto
      · rintro (hw | ⟨rfl | hw, hw'⟩)
        · exact .inl hw
        · exact .inr ⟨by tauto, hw'⟩
        · exact .inr ⟨hw, hw'⟩

theorem nodup_pushFresh (hn : stack.Nodup) (hs : ∀ v ∈ stack, ¬ marks.isFresh v = true) :
    (pushFresh marks stack vertices).2.Nodup := by
  induction vertices with
  | nil => exact hn
  | cons v vs ih =>
    have hf := @isFresh_pushFresh marks v stack vs
    have hm := @mem_pushFresh marks v stack vs
    simp only [pushFresh, List.foldr_cons] at ih hf hm ⊢
    split
    case isTrue h =>
      rw [hf] at h
      refine List.nodup_cons.2 ⟨fun hv => ?_, ih⟩
      rcases hm.1 hv with hv | ⟨hv, _⟩
      · exact hs v hv h.1
      · exact h.2 hv
    case isFalse h => exact ih

end pushFresh

/-- What a search that marks when it pushes still lists, seen from any of its states. -/
structure PushListing (g : Digraph) (marks : Marks) (stack order : List Nat) : Prop where
  stack_mem : ∀ v ∈ stack, v ∈ order
  origin : ∀ v ∈ order, v ∈ stack ∨ marks.isFresh v = true
  reached : ∀ v ∈ order, ∃ u ∈ stack, g.Reaches u v
  closed : ∀ v ∈ order, ∀ w, g.Edge v w → marks.isFresh w = true → w ∈ order
  nodup : order.Nodup

theorem PushListing.step {stack order : List Nat} (hsize : marks.size = g.size) (hv : v < g.size)
    (hmarked : ∀ u ∈ v :: stack, ¬ marks.isFresh u = true) (hn : (v :: stack).Nodup)
    (h : PushListing g (pushFresh marks stack (g.succs v)).1
      (pushFresh marks stack (g.succs v)).2 order) :
    PushListing g marks (v :: stack) (v :: order) where
  stack_mem := by
    intro u hu
    rcases List.mem_cons.1 hu with rfl | hu
    · exact List.mem_cons_self ..
    · exact List.mem_cons_of_mem _ (h.stack_mem u (mem_pushFresh.2 (.inl hu)))
  origin := by
    intro u hu
    rcases List.mem_cons.1 hu with rfl | hu
    · exact .inl (List.mem_cons_self ..)
    · rcases h.origin u hu with hu | hu
      · rcases mem_pushFresh.1 hu with hu | ⟨_, hu⟩
        · exact .inl (List.mem_cons_of_mem _ hu)
        · exact .inr hu
      · exact .inr (isFresh_pushFresh.1 hu).1
  reached := by
    intro u hu
    rcases List.mem_cons.1 hu with rfl | hu
    · exact ⟨u, List.mem_cons_self .., .refl hv⟩
    · obtain ⟨s, hs, hsu⟩ := h.reached u hu
      rcases mem_pushFresh.1 hs with hs | ⟨hs, hfresh⟩
      · exact ⟨s, List.mem_cons_of_mem _ hs, hsu⟩
      · have hedge : g.Edge v s := ⟨hv, hsize ▸ Marks.lt_size_of_isFresh hfresh, hs⟩
        exact ⟨v, List.mem_cons_self .., hedge.reaches.trans hsu⟩
  closed := by
    intro u hu w huw hw
    by_cases hmem : w ∈ g.succs v
    · exact List.mem_cons_of_mem _ (h.stack_mem w (mem_pushFresh.2 (.inr ⟨hmem, hw⟩)))
    · rcases List.mem_cons.1 hu with rfl | hu
      · exact absurd huw.2.2 hmem
      · exact List.mem_cons_of_mem _ (h.closed u hu w huw (isFresh_pushFresh.2 ⟨hw, hmem⟩))
  nodup := by
    refine List.nodup_cons.2 ⟨fun hmem => ?_, h.nodup⟩
    rcases h.origin v hmem with hmem | hmem
    · rcases mem_pushFresh.1 hmem with hmem | ⟨_, hmem⟩
      · exact (List.nodup_cons.1 hn).1 hmem
      · exact hmarked v (List.mem_cons_self ..) hmem
    · exact hmarked v (List.mem_cons_self ..) (isFresh_pushFresh.1 hmem).1

theorem pushOrderFrom_listing (g : Digraph) (marks : Marks) (stack : List Nat)
    (hsize : marks.size = g.size) (hlt : ∀ v ∈ stack, v < g.size)
    (hmarked : ∀ v ∈ stack, ¬ marks.isFresh v = true) (hn : stack.Nodup) :
    PushListing g marks stack (pushOrderFrom g marks stack) := by
  fun_induction pushOrderFrom g marks stack with
  | case1 marks => constructor <;> simp
  | case2 marks v stack next ih =>
    refine .step hsize (hlt v (List.mem_cons_self ..)) hmarked hn (ih ?_ ?_ ?_ ?_)
    · simpa [next] using hsize
    · intro u hu
      rcases mem_pushFresh.1 hu with hu | ⟨_, hu⟩
      · exact hlt u (List.mem_cons_of_mem _ hu)
      · exact hsize ▸ Marks.lt_size_of_isFresh hu
    · intro u hu hfresh
      obtain ⟨hfresh, hnot⟩ := isFresh_pushFresh.1 hfresh
      rcases mem_pushFresh.1 hu with hu | ⟨hu, _⟩
      · exact hmarked u (List.mem_cons_of_mem _ hu) hfresh
      · exact hnot hu
    · exact nodup_pushFresh (List.nodup_cons.1 hn).2
        fun u hu => hmarked u (List.mem_cons_of_mem _ hu)

theorem pushOrder_listing {start : Nat} (h : start < g.size) :
    PushListing g ((Marks.none g.size).mark start) [start] (g.pushOrder start) := by
  rw [pushOrder, if_pos h]
  refine pushOrderFrom_listing g _ _ (by simp [Marks.none]) ?_ ?_ (List.nodup_singleton _)
  · simpa using h
  · simp [Marks.isFresh_mark]

/-- **The push order** lists the reachable vertices, -/
theorem mem_pushOrder {start : Nat} : v ∈ g.pushOrder start ↔ g.Reaches start v := by
  by_cases h : start < g.size
  · have hl := pushOrder_listing h
    constructor
    · intro hv
      obtain ⟨u, hu, huv⟩ := hl.reached v hv
      obtain rfl : u = start := by simpa using hu
      exact huv
    · intro hv
      refine hv.induction (P := (· ∈ g.pushOrder start)) (hl.stack_mem start (by simp)) ?_
      intro x y _ hxy hx
      by_cases hy : y = start
      · exact hy ▸ hl.stack_mem start (by simp)
      · refine hl.closed x hx y hxy (Marks.isFresh_mark.2 ⟨?_, hy⟩)
        simpa [Marks.isFresh_none] using hxy.right_lt
  · rw [pushOrder, if_neg h]
    simp only [List.not_mem_nil, false_iff]
    exact fun hr => h hr.left_lt

/-- each once. -/
theorem nodup_pushOrder (start : Nat) : (g.pushOrder start).Nodup := by
  by_cases h : start < g.size
  · exact (pushOrder_listing h).nodup
  · simp [pushOrder, h]

theorem pushOrderFrom_congr {h : Digraph} {P : Nat → Prop} (marks : Marks) (stack : List Nat)
    (hsize : marks.size = g.size) (hsame : ∀ v, P v → h.succs v = g.succs v)
    (hstep : ∀ v w, P v → w ∈ g.succs v → w < g.size → P w) (hstack : ∀ v ∈ stack, P v) :
    pushOrderFrom h marks stack = pushOrderFrom g marks stack := by
  fun_induction pushOrderFrom g marks stack with
  | case1 marks => rw [pushOrderFrom]
  | case2 marks v stack next ih =>
    have hv := hstack v (List.mem_cons_self ..)
    rw [pushOrderFrom, hsame v hv]
    refine congrArg (v :: ·) (ih (by simpa [next] using hsize) fun u hu => ?_)
    rcases mem_pushFresh.1 hu with hu | ⟨hu, hfresh⟩
    · exact hstack u (List.mem_cons_of_mem _ hu)
    · exact hstep v u hv hu (hsize ▸ Marks.lt_size_of_isFresh hfresh)

/-- The order depends on the successors of the reachable vertices only. -/
theorem pushOrder_congr {h : Digraph} {start : Nat} (hsize : h.size = g.size)
    (hsame : ∀ v, g.Reaches start v → h.succs v = g.succs v) :
    h.pushOrder start = g.pushOrder start := by
  rw [pushOrder, pushOrder, hsize]
  split
  · rename_i hlt
    refine pushOrderFrom_congr _ _ (by simp [Marks.none]) hsame (fun v w hv hw hsize => ?_)
      (by simpa using Reaches.refl hlt)
    exact hv.step ⟨hv.right_lt, hsize, hw⟩
  · rfl

/-! ## Marking when entered -/

/-- What a depth-first search still lists, seen from any of its states. -/
structure LeaveListing (g : Digraph) (marks : Marks) (left : List Nat) (tasks : List Task)
    (order : List Nat) : Prop where
  left_mem : ∀ v ∈ left, v ∈ order
  leave_mem : ∀ v, .leave v ∈ tasks → v ∈ order
  enter_mem : ∀ v, .enter v ∈ tasks → marks.isFresh v = true → v ∈ order
  origin : ∀ v ∈ order, v ∈ left ∨ .leave v ∈ tasks ∨
    (marks.isFresh v = true ∧ ∃ u, .enter u ∈ tasks ∧ g.Reaches u v)
  closed : ∀ v ∈ order, v ∈ left ∨ .leave v ∈ tasks ∨
    ∀ w, g.Edge v w → marks.isFresh w = true → w ∈ order

theorem LeaveListing.leave {left : List Nat} {tasks : List Task} {order : List Nat}
    (h : LeaveListing g marks (v :: left) tasks order) :
    LeaveListing g marks left (.leave v :: tasks) order where
  left_mem := fun u hu => h.left_mem u (List.mem_cons_of_mem _ hu)
  leave_mem := by
    intro u hu
    rcases List.mem_cons.1 hu with hu | hu
    · obtain rfl : u = v := by simpa using hu
      exact h.left_mem u (List.mem_cons_self ..)
    · exact h.leave_mem u hu
  enter_mem := by
    intro u hu
    exact h.enter_mem u (by simpa using hu)
  origin := by
    intro u hu
    rcases h.origin u hu with hu | hu | ⟨hu, s, hs, hsu⟩
    · rcases List.mem_cons.1 hu with rfl | hu
      · exact .inr (.inl (List.mem_cons_self ..))
      · exact .inl hu
    · exact .inr (.inl (List.mem_cons_of_mem _ hu))
    · exact .inr (.inr ⟨hu, s, List.mem_cons_of_mem _ hs, hsu⟩)
  closed := by
    intro u hu
    rcases h.closed u hu with hu | hu | hu
    · rcases List.mem_cons.1 hu with rfl | hu
      · exact .inr (.inl (List.mem_cons_self ..))
      · exact .inl hu
    · exact .inr (.inl (List.mem_cons_of_mem _ hu))
    · exact .inr (.inr hu)

theorem LeaveListing.enter {left : List Nat} {tasks : List Task} {order : List Nat}
    (hsize : marks.size = g.size) (hv : marks.isFresh v = true)
    (h : LeaveListing g (marks.mark v) left
      (((g.succs v).filter (marks.mark v).isFresh).map .enter ++ .leave v :: tasks) order) :
    LeaveListing g marks left (.enter v :: tasks) order := by
  have hlt : v < g.size := hsize ▸ Marks.lt_size_of_isFresh hv
  have hvmem : v ∈ order := h.leave_mem v (by simp)
  -- a fresh successor of `v` is entered from it, unless it is `v` itself
  have hsucc : ∀ w, g.Edge v w → marks.isFresh w = true → w ∈ order := by
    intro w hvw hw
    by_cases hwv : w = v
    · exact hwv ▸ hvmem
    · have hfresh : (marks.mark v).isFresh w = true := Marks.isFresh_mark.2 ⟨hw, hwv⟩
      exact h.enter_mem w (by simp [hvw.2.2, hfresh]) hfresh
  refine ⟨h.left_mem, ?_, ?_, ?_, ?_⟩
  · intro u hu
    exact h.leave_mem u (by simp at hu; simp [hu])
  · intro u hu hfresh
    by_cases huv : u = v
    · exact huv ▸ hvmem
    · exact h.enter_mem u (by simp [huv] at hu; simp [hu]) (Marks.isFresh_mark.2 ⟨hfresh, huv⟩)
  · intro u hu
    rcases h.origin u hu with hu | hu | ⟨hu, s, hs, hsu⟩
    · exact .inl hu
    · simp only [List.mem_append, List.mem_map, reduceCtorEq, and_false, exists_false,
        List.mem_cons, Task.leave.injEq, false_or] at hu
      rcases hu with rfl | hu
      · exact .inr (.inr ⟨hv, u, List.mem_cons_self .., .refl hlt⟩)
      · exact .inr (.inl (List.mem_cons_of_mem _ hu))
    · have hu' := (Marks.isFresh_mark.1 hu).1
      simp only [List.mem_append, List.mem_map, List.mem_filter, Task.enter.injEq,
        exists_eq_right, List.mem_cons, reduceCtorEq, false_or] at hs
      rcases hs with ⟨hs, hfresh⟩ | hs
      · have hsg : s < g.size := by
          have := Marks.lt_size_of_isFresh hfresh
          simpa [hsize] using this
        have hedge : g.Edge v s := ⟨hlt, hsg, hs⟩
        exact .inr (.inr ⟨hu', v, List.mem_cons_self .., hedge.reaches.trans hsu⟩)
      · exact .inr (.inr ⟨hu', s, List.mem_cons_of_mem _ hs, hsu⟩)
  · intro u hu
    rcases h.closed u hu with hu | hu | hu
    · exact .inl hu
    · simp only [List.mem_append, List.mem_map, reduceCtorEq, and_false, exists_false,
        List.mem_cons, Task.leave.injEq, false_or] at hu
      rcases hu with rfl | hu
      · exact .inr (.inr hsucc)
      · exact .inr (.inl (List.mem_cons_of_mem _ hu))
    · refine .inr (.inr fun w huw hw => ?_)
      by_cases hwv : w = v
      · exact hwv ▸ hvmem
      · exact hu w huw (Marks.isFresh_mark.2 ⟨hw, hwv⟩)

theorem LeaveListing.skip {left : List Nat} {tasks : List Task} {order : List Nat}
    (hv : ¬ marks.isFresh v = true) (h : LeaveListing g marks left tasks order) :
    LeaveListing g marks left (.enter v :: tasks) order where
  left_mem := h.left_mem
  leave_mem := by
    intro u hu
    exact h.leave_mem u (by simpa using hu)
  enter_mem := by
    intro u hu hfresh
    rcases List.mem_cons.1 hu with hu | hu
    · obtain rfl : u = v := by simpa using hu
      exact absurd hfresh hv
    · exact h.enter_mem u hu hfresh
  origin := by
    intro u hu
    rcases h.origin u hu with hu | hu | ⟨hu, s, hs, hsu⟩
    · exact .inl hu
    · exact .inr (.inl (List.mem_cons_of_mem _ hu))
    · exact .inr (.inr ⟨hu, s, List.mem_cons_of_mem _ hs, hsu⟩)
  closed := by
    intro u hu
    rcases h.closed u hu with hu | hu | hu
    · exact .inl hu
    · exact .inr (.inl (List.mem_cons_of_mem _ hu))
    · exact .inr (.inr hu)

theorem leaveOrderFrom_listing (g : Digraph) (marks : Marks) (left : List Nat) (tasks : List Task)
    (hsize : marks.size = g.size) :
    LeaveListing g marks left tasks (leaveOrderFrom g marks left tasks) := by
  match tasks with
  | [] =>
    rw [leaveOrderFrom]
    exact ⟨fun v hv => hv, by simp, by simp, fun v hv => .inl hv, fun v hv => .inl hv⟩
  | .leave v :: tasks =>
    rw [leaveOrderFrom]
    exact (leaveOrderFrom_listing g marks (v :: left) tasks hsize).leave
  | .enter v :: tasks =>
    rw [leaveOrderFrom]
    by_cases hv : marks.isFresh v = true
    · rw [if_pos hv]
      exact .enter hsize hv (leaveOrderFrom_listing g (marks.mark v) left _ (by simpa using hsize))
    · rw [if_neg hv]
      exact .skip hv (leaveOrderFrom_listing g marks left tasks hsize)
termination_by (marks.unmarked, tasks.length)
decreasing_by
  · exact Prod.Lex.right _ (by simp)
  · have := Marks.unmarked_mark hv
    exact Prod.Lex.left _ _ (by omega)
  · exact Prod.Lex.right _ (by simp)

/-- **The reverse postorder** lists the reachable vertices. -/
theorem mem_reversePostorder {start : Nat} :
    v ∈ g.reversePostorder start ↔ g.Reaches start v := by
  have hl := leaveOrderFrom_listing g (Marks.none g.size) [] [.enter start] (by simp [Marks.none])
  constructor
  · intro hv
    rcases hl.origin v hv with hv | hv | ⟨_, u, hu, huv⟩
    · simp at hv
    · simp at hv
    · obtain rfl : u = start := by simpa using hu
      exact huv
  · intro hv
    have hstart : start ∈ g.reversePostorder start :=
      hl.enter_mem start (by simp) (by simpa [Marks.isFresh_none] using hv.left_lt)
    refine hv.induction (P := (· ∈ g.reversePostorder start)) hstart ?_
    intro x y _ hxy hx
    rcases hl.closed x hx with hx | hx | hx
    · simp at hx
    · simp at hx
    · exact hx y hxy (by simpa [Marks.isFresh_none] using hxy.right_lt)

/-- The vertex that a task of a depth-first search leaves. -/
def Task.leaves? : Task → Option Nat
  | .enter _ => none
  | .leave v => some v

theorem filterMap_leaves?_enter (us : List Nat) :
    (us.map Task.enter).filterMap Task.leaves? = [] := by
  simp [List.filterMap_eq_nil_iff, Task.leaves?]

/-- The vertices left so far and those still to be left are marked and differ, and stay so. -/
theorem nodup_leaveOrderFrom (g : Digraph) (marks : Marks) (left : List Nat) (tasks : List Task)
    (hn : (left ++ tasks.filterMap Task.leaves?).Nodup)
    (hmarked : ∀ u ∈ left ++ tasks.filterMap Task.leaves?, ¬ marks.isFresh u = true) :
    (leaveOrderFrom g marks left tasks).Nodup := by
  match tasks with
  | [] =>
    rw [leaveOrderFrom]
    simpa using hn
  | .leave v :: tasks =>
    rw [leaveOrderFrom]
    simp only [List.filterMap_cons, Task.leaves?] at hn hmarked
    refine nodup_leaveOrderFrom g marks (v :: left) tasks (List.nodup_middle.1 hn) fun u hu => ?_
    refine hmarked u ?_
    simp only [List.mem_append, List.mem_cons] at hu ⊢
    tauto
  | .enter v :: tasks =>
    rw [leaveOrderFrom]
    simp only [List.filterMap_cons, Task.leaves?] at hn hmarked
    by_cases hv : marks.isFresh v = true
    · rw [if_pos hv]
      refine nodup_leaveOrderFrom g (marks.mark v) left _ ?_ ?_
      · simp only [List.filterMap_append, filterMap_leaves?_enter, List.nil_append,
          List.filterMap_cons, Task.leaves?]
        exact List.nodup_middle.2 (List.nodup_cons.2 ⟨fun hmem => hmarked v hmem hv, hn⟩)
      · intro u hu hfresh
        obtain ⟨hfresh, hne⟩ := Marks.isFresh_mark.1 hfresh
        simp only [List.filterMap_append, filterMap_leaves?_enter, List.nil_append,
          List.filterMap_cons, Task.leaves?] at hu
        exact hmarked u (by simpa [hne] using hu) hfresh
    · rw [if_neg hv]
      exact nodup_leaveOrderFrom g marks left tasks hn hmarked
termination_by (marks.unmarked, tasks.length)
decreasing_by
  · exact Prod.Lex.right _ (by simp)
  · have := Marks.unmarked_mark hv
    exact Prod.Lex.left _ _ (by omega)
  · exact Prod.Lex.right _ (by simp)

/-- It lists no vertex twice. -/
theorem nodup_reversePostorder (start : Nat) : (g.reversePostorder start).Nodup :=
  nodup_leaveOrderFrom g _ [] [.enter start] List.nodup_nil fun _ hu => by cases hu

/-! ## Flooding -/

theorem flood_marks (g : Digraph) (marks : Marks) (stack : List Nat) {v : Nat}
    (h : marks.isMarked v = true) : (g.flood marks stack).isMarked v = true := by
  fun_induction flood g marks stack with
  | case1 => exact h
  | case2 marks w stack _ ih => exact ih (Marks.isMarked_mark.2 (.inl h))
  | case3 marks w stack _ ih => exact ih h

theorem flood_marks_stack (g : Digraph) (marks : Marks) (stack : List Nat) {v : Nat}
    (hv : v ∈ stack) (hlt : v < marks.size) : (g.flood marks stack).isMarked v = true := by
  fun_induction flood g marks stack with
  | case1 => simp at hv
  | case2 marks w stack _ ih =>
    rcases List.mem_cons.1 hv with rfl | hv
    · exact flood_marks _ _ _ (Marks.isMarked_mark.2 (.inr ⟨rfl, hlt⟩))
    · exact ih (List.mem_append_right _ hv) (by simpa using hlt)
  | case3 marks w stack hw ih =>
    rcases List.mem_cons.1 hv with rfl | hv
    · exact flood_marks _ _ _ (not_not.1 fun hm => hw (Marks.isFresh_iff.2 ⟨hlt, hm⟩))
    · exact ih hv hlt

/-- What flooding marks it also leaves by all edges. -/
theorem flood_closed (g : Digraph) (marks : Marks) (stack : List Nat) {v w : Nat}
    (hv : (g.flood marks stack).isMarked v = true) (hnew : ¬ marks.isMarked v = true)
    (hw : w ∈ g.succs v) (hlt : w < marks.size) : (g.flood marks stack).isMarked w = true := by
  fun_induction flood g marks stack with
  | case1 => exact absurd hv hnew
  | case2 marks u stack hu ih =>
    by_cases huv : v = u
    · subst huv
      exact flood_marks_stack _ _ _ (List.mem_append_left _ hw) (by simpa using hlt)
    · refine ih hv ?_ (by simpa using hlt)
      rw [Marks.isMarked_mark]
      tauto
  | case3 marks u stack _ ih => exact ih hv hnew hlt

/-- What holds of the fresh vertices of the stack and passes along edges between fresh vertices
holds of everything that flooding marks. -/
theorem flood_induction {P : Nat → Prop} (g : Digraph) (marks : Marks) (stack : List Nat)
    (hstack : ∀ u ∈ stack, marks.isFresh u = true → P u)
    (hstep : ∀ u w, marks.isFresh u = true → P u → w ∈ g.succs u → marks.isFresh w = true → P w)
    {v : Nat} (hv : (g.flood marks stack).isMarked v = true) : marks.isMarked v = true ∨ P v := by
  fun_induction flood g marks stack with
  | case1 => exact .inl hv
  | case2 marks u stack hu ih =>
    have hPu : P u := hstack u (List.mem_cons_self ..) hu
    have h := ih ?_ ?_ hv
    · rcases h with h | h
      · rcases Marks.isMarked_mark.1 h with h | ⟨rfl, _⟩
        · exact .inl h
        · exact .inr hPu
      · exact .inr h
    · intro w hw hfresh
      have hfresh := (Marks.isFresh_mark.1 hfresh).1
      rcases List.mem_append.1 hw with hw | hw
      · exact hstep u w hu hPu hw hfresh
      · exact hstack w (List.mem_cons_of_mem _ hw) hfresh
    · intro x w hx hPx hw hfresh
      exact hstep x w (Marks.isFresh_mark.1 hx).1 hPx hw (Marks.isFresh_mark.1 hfresh).1
  | case3 marks u stack _ ih =>
    exact ih (fun w hw => hstack w (List.mem_cons_of_mem _ hw)) hstep hv

end Unroller.Digraph
