import Mathlib.Tactic
import Unroller.Proofs.Digraph.NaturalLoops

/-!
# The reverse postorder and dominance

A depth-first search that leaves `v` has entered everything that `v` leads to.  Of that, what is not
left yet lies on the way to `v`, so it leads back to `v`; all the rest was left before.  And a
vertex is entered from one that is still open, which is left later.

* `entered`: the vertices entered so far, in the order in which the search will have left them.
* `Leaving`: what holds in every state of the search, with one lemma for each kind of step.
* `leaving_reversePostorder`: so it holds at the end, by induction on the search.
* `reversePostorder_dominance`: dominators come first, and so does the source of every edge that no
  walk leads back over.
-/

namespace Unroller.Digraph

variable {g : Digraph} {start a b p u v w : Nat} {marks : Marks} {left order : List Nat}
  {tasks : List Task}

/-- The vertex that a task enters or leaves. -/
def Task.vertex : Task → Nat
  | .enter v => v
  | .leave v => v

/-- The vertices entered and not left, the last one first. -/
def opened (tasks : List Task) : List Nat := tasks.filterMap Task.leaves?

/-- The vertices entered so far.  The open ones will be left after all others, the first one last.
-/
def entered (left : List Nat) (tasks : List Task) : List Nat := (opened tasks).reverse ++ left

theorem mem_opened : v ∈ opened tasks ↔ .leave v ∈ tasks := by
  rw [opened, List.mem_filterMap]
  constructor
  · rintro ⟨t, ht, hv⟩
    cases t with
    | enter u => cases hv
    | leave u =>
      obtain rfl : u = v := by simpa [Task.leaves?] using hv
      exact ht
  · exact fun h => ⟨_, h, rfl⟩

theorem mem_entered : v ∈ entered left tasks ↔ v ∈ left ∨ .leave v ∈ tasks := by
  rw [entered, List.mem_append, List.mem_reverse, mem_opened, or_comm]

/-- Leaving a vertex does not change its place. -/
theorem entered_leave : entered left (.leave v :: tasks) = entered (v :: left) tasks := by
  simp [entered, opened, Task.leaves?]

/-- A vertex just entered comes right before those that have been left. -/
theorem entered_expand (us : List Nat) :
    entered left (us.map .enter ++ .leave v :: tasks) = (opened tasks).reverse ++ v :: left := by
  simp [entered, opened, Task.leaves?]

theorem entered_sublist_expand (left : List Nat) (v : Nat) (tasks : List Task) (us : List Nat) :
    (entered left tasks).Sublist (entered left (us.map .enter ++ .leave v :: tasks)) := by
  rw [entered_expand, entered]
  exact (List.sublist_cons_self v left).append_left _

/-- Where an open vertex stands after `v` has been entered. -/
theorem append_leave_cases {us : List Nat} {before after : List Task}
    (h : us.map .enter ++ .leave v :: tasks = before ++ .leave u :: after) :
    before = us.map .enter ∧ v = u ∧ tasks = after ∨
      ∃ above, before = us.map .enter ++ .leave v :: above ∧
        tasks = above ++ .leave u :: after := by
  induction us generalizing before with
  | nil =>
    cases before with
    | nil => simpa using h
    | cons t above =>
      obtain ⟨rfl, rfl⟩ : Task.leave v = t ∧ tasks = above ++ .leave u :: after := by simpa using h
      exact .inr ⟨above, rfl, rfl⟩
  | cons x us ih =>
    cases before with
    | nil => simp at h
    | cons t before =>
      obtain ⟨rfl, hrest⟩ := List.cons_eq_cons.1 h
      exact (ih hrest).imp (fun ⟨hb, hrest⟩ => ⟨by rw [hb]; rfl, hrest⟩)
        fun ⟨above, hb, hrest⟩ => ⟨above, by rw [hb]; rfl, hrest⟩

/-! ## What holds in every state -/

/-- A state of a search from `start`. -/
structure Leaving (g : Digraph) (start : Nat) (marks : Marks) (left : List Nat)
    (tasks : List Task) : Prop where
  size : marks.size = g.size
  /-- What is not fresh has been entered. -/
  met : ∀ v < g.size, marks.isFresh v = true ∨ v ∈ entered left tasks
  /-- What is to be entered was found from a vertex that has been entered. -/
  found : ∀ v, .enter v ∈ tasks → v = start ∨ ∃ p ∈ entered left tasks, g.Edge p v
  /-- A vertex was entered from one that is left later. -/
  parent : ∀ v ∈ entered left tasks, v = start ∨
    ∃ p, g.Edge p v ∧ [p, v].Sublist (entered left tasks)
  /-- An open vertex leads to everything that is done before it is left. -/
  nested : tasks.Pairwise fun t s => ∀ u, s = .leave u → g.Reaches u t.vertex
  /-- What an open vertex leads to is entered before it is left. -/
  covered : ∀ before v after, tasks = before ++ .leave v :: after →
    ∀ w, g.Edge v w → marks.isFresh w = true → .enter w ∈ before
  /-- What a vertex that has been left leads to has been entered. -/
  closed : ∀ v ∈ left, ∀ w, g.Edge v w → ¬ marks.isFresh w = true
  /-- And it was left before, or leads back. -/
  ordered : ∀ v ∈ left, ∀ w, g.Edge v w → [v, w].Sublist left ∨ g.Reaches w v

namespace Leaving

theorem initial (g : Digraph) (start : Nat) :
    Leaving g start (Marks.none g.size) [] [.enter start] where
  size := by simp [Marks.none]
  met := fun v hv => .inl (by simpa [Marks.isFresh_none] using hv)
  found := fun v hv => .inl (by simpa using hv)
  parent := by simp [entered, opened, Task.leaves?]
  nested := List.pairwise_singleton _ _
  covered := by
    intro before v after heq
    have hmem : Task.leave v ∈ [Task.enter start] := by simp [heq]
    simp at hmem
  closed := by simp
  ordered := by simp

/-- Leaving a vertex.  All that it leads to has been entered by then. -/
theorem leave (h : Leaving g start marks left (.leave v :: tasks)) :
    Leaving g start marks (v :: left) tasks := by
  have hclosed : ∀ w, g.Edge v w → ¬ marks.isFresh w = true := fun w hvw hw => by
    simpa using h.covered [] v tasks rfl w hvw hw
  refine
    { size := h.size
      met := fun u hu => entered_leave ▸ h.met u hu
      found := fun u hu => entered_leave ▸ h.found u (List.mem_cons_of_mem _ hu)
      parent := entered_leave ▸ h.parent
      nested := h.nested.of_cons
      covered := ?covered
      closed := List.forall_mem_cons.2 ⟨hclosed, h.closed⟩
      ordered := List.forall_mem_cons.2 ⟨fun w hvw => ?ordered, fun u hu w huw => ?still⟩ }
  case covered =>
    rintro before u after rfl w huw hw
    simpa using h.covered (.leave v :: before) u after rfl w huw hw
  case ordered =>
    rcases mem_entered.1 ((h.met w hvw.right_lt).resolve_left (hclosed w hvw)) with hw | hw
    · exact .inl ((List.singleton_sublist.2 hw).cons_cons v)
    · right
      rcases List.mem_cons.1 hw with heq | hw
      · obtain rfl : w = v := by simpa using heq
        exact .refl hvw.left_lt
      · exact (List.pairwise_cons.1 h.nested).1 _ hw w rfl
  case still =>
    exact (h.ordered u hu w huw).imp (fun hs => hs.cons v) id

/-- A vertex found again is not entered. -/
theorem skip (h : Leaving g start marks left (.enter v :: tasks)) (hv : ¬ marks.isFresh v = true) :
    Leaving g start marks left tasks where
  __ := h
  found := fun u hu => h.found u (List.mem_cons_of_mem _ hu)
  nested := h.nested.of_cons
  covered := by
    rintro before u after rfl w huw hw
    rcases List.mem_cons.1 (h.covered (.enter v :: before) u after rfl w huw hw) with heq | hmem
    · obtain rfl : w = v := by simpa using heq
      exact absurd hw hv
    · exact hmem

/-- Entering a vertex.  It was found from one that is still open. -/
theorem enter (h : Leaving g start marks left (.enter v :: tasks)) (hv : marks.isFresh v = true) :
    Leaving g start (marks.mark v) left
      (((g.succs v).filter (marks.mark v).isFresh).map .enter ++ .leave v :: tasks) := by
  have hlt : v < g.size := h.size ▸ Marks.lt_size_of_isFresh hv
  have hedge : ∀ u ∈ (g.succs v).filter (marks.mark v).isFresh, g.Edge v u := by
    intro u hu
    obtain ⟨hmem, hfresh⟩ := List.mem_filter.1 hu
    exact ⟨hlt, by simpa [h.size] using Marks.lt_size_of_isFresh hfresh, hmem⟩
  have hsub := entered_sublist_expand left v tasks ((g.succs v).filter (marks.mark v).isFresh)
  have hself : v ∈ entered left
      (((g.succs v).filter (marks.mark v).isFresh).map .enter ++ .leave v :: tasks) :=
    mem_entered.2 (.inr (by simp))
  have hnested := List.pairwise_cons.1 h.nested
  refine
    { size := by simpa using h.size
      met := ?met
      found := ?found
      parent := ?parent
      nested := List.pairwise_append.2 ⟨?entering, List.pairwise_cons.2 hnested, ?nested⟩
      covered := ?covered
      closed := fun u hu w huw hw => h.closed u hu w huw (Marks.isFresh_mark.1 hw).1
      ordered := h.ordered }
  case met =>
    intro u hu
    by_cases huv : u = v
    · exact .inr (huv ▸ hself)
    · exact (h.met u hu).imp (fun hfresh => Marks.isFresh_mark.2 ⟨hfresh, huv⟩)
        fun hmem => hsub.subset hmem
  case found =>
    intro u hu
    simp only [List.mem_append, List.mem_map, Task.enter.injEq, exists_eq_right, List.mem_cons,
      reduceCtorEq, false_or] at hu
    rcases hu with hu | hu
    · exact .inr ⟨v, hself, hedge u hu⟩
    · exact (h.found u (List.mem_cons_of_mem _ hu)).imp id fun ⟨p, hp, hpu⟩ =>
        ⟨p, hsub.subset hp, hpu⟩
  case parent =>
    intro u hu
    by_cases huv : u = v
    · subst huv
      refine (h.found u (List.mem_cons_self ..)).imp id fun ⟨p, hp, hpu⟩ => ⟨p, hpu, ?_⟩
      -- had `p` been left, `u` would not be fresh
      rcases mem_entered.1 hp with hp | hp
      · exact absurd hv (h.closed p hp u hpu)
      · rw [entered_expand]
        have hp : p ∈ (opened tasks).reverse :=
          List.mem_reverse.2 (mem_opened.2 (by simpa using hp))
        exact (List.singleton_sublist.2 hp).append
          (List.singleton_sublist.2 (List.mem_cons_self ..))
    · have hold : u ∈ entered left tasks := by
        rw [mem_entered] at hu ⊢
        simpa [huv] using hu
      exact (h.parent u hold).imp id fun ⟨p, hpu, hs⟩ => ⟨p, hpu, hs.trans hsub⟩
  case entering =>
    refine List.pairwise_of_forall_mem_list fun t _ s hs u heq => ?_
    subst heq
    simp at hs
  case nested =>
    rintro t ht s hs u rfl
    obtain ⟨x, hx, rfl⟩ := List.mem_map.1 ht
    rcases List.mem_cons.1 hs with heq | hs
    · obtain rfl : u = v := by simpa using heq
      exact (hedge x hx).reaches
    · exact (hnested.1 _ hs u rfl).step (hedge x hx)
  case covered =>
    intro before u after heq w huw hw
    obtain ⟨hfresh, hwv⟩ := Marks.isFresh_mark.1 hw
    rcases append_leave_cases heq with ⟨rfl, rfl, rfl⟩ | ⟨above, rfl, rfl⟩
    · simp [huw.2.2, hw]
    · have hmem := h.covered (.enter v :: above) u after rfl w huw hfresh
      have hmem : Task.enter w ∈ above := by simpa [hwv] using hmem
      simp [hmem]

end Leaving

/-- **A search** comes from each of its states to an end of which the same holds. -/
theorem leaving_leaveOrderFrom (start : Nat) (marks : Marks) (left : List Nat) (tasks : List Task)
    (h : Leaving g start marks left tasks) :
    ∃ ends, Leaving g start ends (leaveOrderFrom g marks left tasks) [] := by
  match tasks with
  | [] =>
    rw [leaveOrderFrom]
    exact ⟨marks, h⟩
  | .leave v :: tasks =>
    rw [leaveOrderFrom]
    exact leaving_leaveOrderFrom start marks (v :: left) tasks h.leave
  | .enter v :: tasks =>
    rw [leaveOrderFrom]
    by_cases hv : marks.isFresh v = true
    · rw [if_pos hv]
      exact leaving_leaveOrderFrom start (marks.mark v) left _ (h.enter hv)
    · rw [if_neg hv]
      exact leaving_leaveOrderFrom start marks left tasks (h.skip hv)
termination_by (marks.unmarked, tasks.length)
decreasing_by
  · exact Prod.Lex.right _ (by simp)
  · have := Marks.unmarked_mark hv
    exact Prod.Lex.left _ _ (by omega)
  · exact Prod.Lex.right _ (by simp)

theorem leaving_reversePostorder (g : Digraph) (start : Nat) :
    ∃ ends, Leaving g start ends (g.reversePostorder start) [] :=
  leaving_leaveOrderFrom start _ [] _ (.initial g start)

/-! ## The whole order -/

/-- In a list without repetition, what a sublist puts first stands first. -/
theorem idxOf_lt_of_sublist (hn : order.Nodup) (h : [a, b].Sublist order) :
    order.idxOf a < order.idxOf b := by
  induction order with
  | nil => cases h
  | cons x order ih =>
    obtain ⟨hx, hn⟩ := List.nodup_cons.1 hn
    cases h with
    | cons _ h =>
      have ha : x ≠ a := fun heq => hx (heq ▸ h.subset (by simp))
      have hb : x ≠ b := fun heq => hx (heq ▸ h.subset (by simp))
      rw [List.idxOf_cons_ne _ ha, List.idxOf_cons_ne _ hb]
      exact Nat.succ_lt_succ (ih hn h)
    | cons_cons _ h =>
      have hb : a ≠ b := fun heq => hx (heq ▸ h.subset (by simp))
      rw [List.idxOf_cons_self, List.idxOf_cons_ne _ hb]
      exact Nat.succ_pos _

/-- Every vertex but the start is led to from an earlier one. -/
theorem exists_earlier_edge (hv : g.Reaches start v) (hne : v ≠ start) :
    ∃ p, g.Edge p v ∧
      (g.reversePostorder start).idxOf p < (g.reversePostorder start).idxOf v := by
  obtain ⟨ends, h⟩ := leaving_reversePostorder g start
  obtain ⟨p, hpv, hs⟩ := (h.parent v (mem_reversePostorder.2 hv)).resolve_left hne
  exact ⟨p, hpv, idxOf_lt_of_sublist (nodup_reversePostorder start) hs⟩

/-- An edge leads to a later vertex, or to one that leads back. -/
theorem idxOf_lt_of_edge (hu : g.Reaches start u) (huv : g.Edge u v) (hback : ¬ g.Reaches v u) :
    (g.reversePostorder start).idxOf u < (g.reversePostorder start).idxOf v := by
  obtain ⟨ends, h⟩ := leaving_reversePostorder g start
  exact idxOf_lt_of_sublist (nodup_reversePostorder start)
    ((h.ordered u (mem_reversePostorder.2 hu) v huv).resolve_right hback)

/-- **A strict dominator comes first**: the earlier vertices that lead to `b`, one to the other,
make a walk, by induction on the place of `b`. -/
theorem idxOf_lt_of_dominates (h : g.Dominates start a b) (hne : a ≠ b) :
    (g.reversePostorder start).idxOf a < (g.reversePostorder start).idxOf b := by
  induction hi : (g.reversePostorder start).idxOf b
    using Nat.strong_induction_on generalizing b with
  | _ i ih =>
    have hstart : b ≠ start := by
      rintro rfl
      exact hne h.eq_entry
    obtain ⟨p, hpb, hlt⟩ := exists_earlier_edge h.reaches hstart
    have hp : g.Reaches start p := by
      rw [← mem_reversePostorder, ← List.idxOf_lt_length_iff]
      exact hlt.trans_le List.idxOf_le_length
    by_cases hap : a = p
    · exact hap ▸ hi ▸ hlt
    · have := ih _ (hi ▸ hlt) (h.of_edge hne hp hpb) hap rfl
      omega

/-- **The reverse postorder respects dominance.**  For every digraph and start it lists the vertices
reachable from the start, each once.  A vertex comes after all its strict dominators, so the members
of a natural loop come after its header; and an edge leads to a later vertex unless some walk leads
back. -/
theorem reversePostorder_dominance (g : Digraph) (start : Nat) :
    let order := g.reversePostorder start
    order.Nodup ∧ (∀ v, v ∈ order ↔ g.Reaches start v) ∧
      (∀ a b, g.Dominates start a b → a ≠ b → order.idxOf a < order.idxOf b) ∧
      (∀ loop ∈ (g.loopForest (g.dominatorTree start) start).loops, ∀ v ∈ loop.blocks,
        v ≠ loop.header → order.idxOf loop.header < order.idxOf v) ∧
      ∀ u v, g.Reaches start u → g.Edge u v → ¬ g.Reaches v u → order.idxOf u < order.idxOf v := by
  refine ⟨nodup_reversePostorder start, fun v => mem_reversePostorder,
    fun a b h hne => idxOf_lt_of_dominates h hne, fun loop hloop v hv hne => ?_,
    fun u v hu huv hback => idxOf_lt_of_edge hu huv hback⟩
  exact idxOf_lt_of_dominates ((isNaturalLoop_of_mem hloop).dominated v hv) hne.symm

end Unroller.Digraph
