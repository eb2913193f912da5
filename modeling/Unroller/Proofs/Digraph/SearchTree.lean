import Mathlib.Tactic
import Mathlib.Logic.Relation
import Unroller.Digraph.Search
import Unroller.Proofs.Digraph.Walk

/-!
# The depth-first spanning tree

`spanningTree` lists the reachable vertices in the order in which a depth-first search enters them,
each with its parent.  `IsSearchTree` says what is special about such a list:

* it holds the reachable vertices, each once, and every parent stands before its children;
* an edge to a later vertex leads to a descendant (`forward`);
* the descendants of a vertex stand together (`between`).

The last two are all that the theory of semidominators needs.  They are proved by an invariant of
the search (`Searching`): the parents of the vertices on the stack are ancestors of the vertex
entered last, those further down the stack higher up in the tree.
-/

namespace Unroller.Digraph

namespace Marks

variable {marks : Marks} {v w : Nat}

@[simp] theorem size_mark (marks : Marks) (v : Nat) : (marks.mark v).size = marks.size := by
  simp [mark]

theorem isFresh_iff : marks.isFresh v = true ↔ v < marks.size ∧ ¬ marks.isMarked v = true := by
  by_cases hv : v < marks.size
  · cases h : marks[v] <;> simp [isFresh, isMarked, hv, h]
  · simp [isFresh, hv]

theorem lt_size_of_isFresh (h : marks.isFresh v = true) : v < marks.size := (isFresh_iff.1 h).1

theorem isMarked_mark :
    (marks.mark v).isMarked w = true ↔ marks.isMarked w = true ∨ (w = v ∧ v < marks.size) := by
  by_cases h : v = w
  · subst h
    by_cases hv : v < marks.size <;> simp [isMarked, mark, hv]
  · simp [isMarked, mark, h, Ne.symm h]

theorem isFresh_mark : (marks.mark v).isFresh w = true ↔ marks.isFresh w = true ∧ w ≠ v := by
  rw [isFresh_iff, isFresh_iff, isMarked_mark, size_mark]
  constructor
  · rintro ⟨hlt, hnot⟩
    exact ⟨⟨hlt, fun hm => hnot (.inl hm)⟩, fun heq => hnot (.inr ⟨heq, heq ▸ hlt⟩)⟩
  · rintro ⟨⟨hlt, hnot⟩, hne⟩
    exact ⟨hlt, fun hm => hm.elim hnot fun heq => hne heq.1⟩

theorem not_isMarked_none {size : Nat} : ¬ (Marks.none size).isMarked v = true := by
  by_cases h : v < size <;> simp [isMarked, Marks.none, h]

theorem isFresh_none {size : Nat} : (Marks.none size).isFresh v = decide (v < size) := by
  by_cases h : v < size <;> simp [isFresh, Marks.none, h]

end Marks

/-- `p` is the parent of `v`. -/
def TreeParent (tree : List (Nat × Option Nat)) (p v : Nat) : Prop := (v, some p) ∈ tree

/-- `a` is `v` or above it. -/
def Ancestor (tree : List (Nat × Option Nat)) : Nat → Nat → Prop :=
  Relation.ReflTransGen (TreeParent tree)

/-- The number of vertices listed before `v`. -/
def position (tree : List (Nat × Option Nat)) (v : Nat) : Nat := (tree.map (·.1)).idxOf v

/-- What a depth-first search from `root` produces. -/
structure IsSearchTree (g : Digraph) (root : Nat) (tree : List (Nat × Option Nat)) : Prop where
  nodup : (tree.map (·.1)).Nodup
  mem_iff : ∀ v, v ∈ tree.map (·.1) ↔ g.Reaches root v
  root_iff : ∀ v, (v, none) ∈ tree ↔ v ∈ tree.map (·.1) ∧ v = root
  parent_edge : ∀ p v, TreeParent tree p v → g.Edge p v
  parent_lt : ∀ p v, TreeParent tree p v → position tree p < position tree v
  forward : ∀ v w, v ∈ tree.map (·.1) → g.Edge v w → position tree v < position tree w →
    Ancestor tree v w
  between : ∀ a b c, Ancestor tree a c → c ∈ tree.map (·.1) → position tree a ≤ position tree b →
    position tree b ≤ position tree c → Ancestor tree a b

/-- The search has entered the vertices of `tree`, the last of them `cur`; the marks are those of
the vertices entered and `stack` holds what is left to look at. -/
structure Searching (g : Digraph) (root : Nat) (marks : Marks) (tree : List (Nat × Option Nat))
    (cur : Nat) (stack : List (Nat × Option Nat)) : Prop where
  size : marks.size = g.size
  marked : ∀ v, v ∈ tree.map (·.1) ↔ marks[v]? = some true
  nodup : (tree.map (·.1)).Nodup
  reached : ∀ v ∈ tree.map (·.1), g.Reaches root v
  root_mem : (root, none) ∈ tree
  root_only : ∀ v, (v, none) ∈ tree → v = root
  parent : ∀ p v, TreeParent tree p v → g.Edge p v ∧ p ∈ tree.map (·.1) ∧
    position tree p < position tree v
  between : ∀ a b c, Ancestor tree a c → c ∈ tree.map (·.1) → position tree a ≤ position tree b →
    position tree b ≤ position tree c → Ancestor tree a b
  forward : ∀ v w, v ∈ tree.map (·.1) → w ∈ tree.map (·.1) → g.Edge v w →
    position tree v < position tree w → Ancestor tree v w
  left : ∀ v w, v ∈ tree.map (·.1) → w ∉ tree.map (·.1) → g.Edge v w → (w, some v) ∈ stack
  cur_mem : cur ∈ tree.map (·.1)
  cur_last : ∀ v ∈ tree.map (·.1), position tree v ≤ position tree cur
  pending : ∀ w q, (w, q) ∈ stack →
    ∃ p, q = some p ∧ p ∈ tree.map (·.1) ∧ g.Edge p w ∧ Ancestor tree p cur
  ordered : stack.Pairwise fun e f => ∀ p q, e.2 = some p → f.2 = some q → Ancestor tree q p

section Growing

variable {tree : List (Nat × Option Nat)} {v w p q a c : Nat}

theorem position_lt_length (h : v ∈ tree.map (·.1)) : position tree v < tree.length := by
  simpa [position] using List.idxOf_lt_length_iff.2 h

theorem mem_of_position_lt (h : position tree v < tree.length) : v ∈ tree.map (·.1) :=
  List.idxOf_lt_length_iff.1 (by simpa [position] using h)

theorem mem_snoc {q : Option Nat} :
    v ∈ (tree ++ [(w, q)]).map (·.1) ↔ v ∈ tree.map (·.1) ∨ v = w := by
  simp

theorem nodup_snoc {q : Option Nat} (hn : (tree.map (·.1)).Nodup) (hw : w ∉ tree.map (·.1)) :
    ((tree ++ [(w, q)]).map (·.1)).Nodup := by
  rw [List.map_append, List.nodup_append]
  refine ⟨hn, by simp, ?_⟩
  intro x hx y hy hxy
  obtain rfl : y = w := by simpa using hy
  exact hw (hxy ▸ hx)

theorem position_snoc_of_mem {q : Option Nat} (h : v ∈ tree.map (·.1)) :
    position (tree ++ [(w, q)]) v = position tree v := by
  simp only [position, List.map_append]
  exact List.idxOf_append_of_mem h

theorem position_snoc_self {q : Option Nat} (h : w ∉ tree.map (·.1)) :
    position (tree ++ [(w, q)]) w = tree.length := by
  simp only [position, List.map_append, List.idxOf_append_of_notMem h]
  simp

theorem position_inj (hv : v ∈ tree.map (·.1)) (h : position tree v = position tree w) :
    v = w :=
  (List.idxOf_inj hv).1 h

theorem Ancestor.left_mem (hparent : ∀ p v, TreeParent tree p v → p ∈ tree.map (·.1))
    (h : Ancestor tree a c) (hc : c ∈ tree.map (·.1)) : a ∈ tree.map (·.1) := by
  rcases Relation.ReflTransGen.cases_head h with rfl | ⟨m, ham, _⟩
  · exact hc
  · exact hparent a m ham

theorem Ancestor.snoc {q : Option Nat} (h : Ancestor tree a c) :
    Ancestor (tree ++ [(w, q)]) a c := by
  induction h with
  | refl => exact .refl
  | tail _ hmc ih => exact ih.tail (List.mem_append_left _ hmc)

/-- A new vertex is above nothing that was there before. -/
theorem Ancestor.of_snoc {q : Option Nat} (hw : w ∉ tree.map (·.1))
    (hparent : ∀ p v, TreeParent tree p v → p ∈ tree.map (·.1))
    (h : Ancestor (tree ++ [(w, q)]) a c) (hc : c ∈ tree.map (·.1)) : Ancestor tree a c := by
  induction h with
  | refl => exact .refl
  | @tail m c _ hmc ih =>
    have hmc : TreeParent tree m c := by
      rcases List.mem_append.1 hmc with hmc | hmc
      · exact hmc
      · obtain ⟨rfl, -⟩ : c = w ∧ _ := by simpa using hmc
        exact absurd hc hw
    exact (ih (hparent m c hmc)).tail hmc

/-- Above a new vertex are its parent and what is above that. -/
theorem Ancestor.of_snoc_self (hw : w ∉ tree.map (·.1)) (hp : p ∈ tree.map (·.1))
    (hparent : ∀ p v, TreeParent tree p v → p ∈ tree.map (·.1))
    (h : Ancestor (tree ++ [(w, some p)]) a w) : a = w ∨ Ancestor tree a p := by
  rcases Relation.ReflTransGen.cases_tail h with rfl | ⟨m, ham, hmw⟩
  · exact .inl rfl
  · right
    obtain rfl : m = p := by
      rcases List.mem_append.1 hmw with hmw | hmw
      · exact absurd (List.mem_map.2 ⟨_, hmw, rfl⟩) hw
      · simpa using hmw
    exact Ancestor.of_snoc hw hparent ham hp

end Growing

namespace Searching

variable {g : Digraph} {root cur : Nat} {marks : Marks} {tree stack : List (Nat × Option Nat)}

theorem parent_mem (h : Searching g root marks tree cur stack) :
    ∀ p v, TreeParent tree p v → p ∈ tree.map (·.1) := fun p v hpv => (h.parent p v hpv).2.1

/-- What is fresh has not been entered. -/
theorem isFresh_iff (h : Searching g root marks tree cur stack) {v : Nat} :
    marks.isFresh v = true ↔ v < g.size ∧ v ∉ tree.map (·.1) := by
  rw [Marks.isFresh_iff, h.size, h.marked, Marks.isMarked, beq_iff_eq]

/-- A vertex found again is left out. -/
theorem skip {w : Nat} {q : Option Nat} (h : Searching g root marks tree cur ((w, q) :: stack))
    (hw : marks.isFresh w = false) : Searching g root marks tree cur stack where
  __ := h
  left := by
    intro v x hv hx hvx
    rcases List.mem_cons.1 (h.left v x hv hx hvx) with heq | hmem
    · -- the entry dropped is of a vertex that is marked, and `x` is not
      obtain ⟨rfl, -⟩ := Prod.mk.inj heq
      rw [h.isFresh_iff.2 ⟨hvx.right_lt, hx⟩] at hw
      cases hw
    · exact hmem
  pending := fun x q hmem => h.pending x q (List.mem_cons_of_mem _ hmem)
  ordered := h.ordered.of_cons

/-! What entering a vertex puts onto the stack. -/

theorem mem_found {v x : Nat} {q : Option Nat} :
    (x, q) ∈ ((g.succs v).filter marks.isFresh).map (fun x => (x, some v)) ↔
      x ∈ g.succs v ∧ marks.isFresh x = true ∧ q = some v := by
  constructor
  · intro h
    obtain ⟨y, hy, heq⟩ := List.mem_map.1 h
    obtain ⟨rfl, rfl⟩ := Prod.mk.inj heq
    obtain ⟨hy, hfresh⟩ := List.mem_filter.1 hy
    exact ⟨hy, hfresh, rfl⟩
  · rintro ⟨hx, hfresh, rfl⟩
    exact List.mem_map.2 ⟨x, List.mem_filter.2 ⟨hx, hfresh⟩, rfl⟩

theorem pairwise_found {v : Nat} :
    (((g.succs v).filter marks.isFresh).map fun x => (x, some v)).Pairwise
      fun e f => ∀ p q, e.2 = some p → f.2 = some q → Ancestor tree q p := by
  refine List.pairwise_of_forall_mem_list ?_
  rintro ⟨y, _⟩ he ⟨z, _⟩ hf p q rfl rfl
  obtain rfl : p = v := Option.some.inj (mem_found.1 he).2.2
  obtain rfl : q = p := Option.some.inj (mem_found.1 hf).2.2
  exact .refl

/-! ### Entering a fresh vertex -/

section Enter

variable {w p : Nat}

theorem found (h : Searching g root marks tree cur ((w, some p) :: stack)) :
    p ∈ tree.map (·.1) ∧ g.Edge p w ∧ Ancestor tree p cur := by
  obtain ⟨p', hp', hfound⟩ := h.pending w (some p) (List.mem_cons_self ..)
  obtain rfl : p = p' := by simpa using hp'
  exact hfound

/-- Whatever else is on the stack was found from above the vertex that the top was found from. -/
theorem above_found (h : Searching g root marks tree cur ((w, some p) :: stack)) {x m : Nat}
    (hx : (x, some m) ∈ (w, some p) :: stack) : Ancestor tree m p := by
  rcases List.mem_cons.1 hx with heq | hin
  · obtain rfl : m = p := by simpa using (Prod.mk.inj heq).2
    exact .refl
  · exact (List.pairwise_cons.1 h.ordered).1 _ hin p m rfl rfl

theorem found_ancestor : Ancestor (tree ++ [(w, some p)]) p w :=
  Relation.ReflTransGen.single (List.mem_append_right _ (List.mem_singleton_self _))

theorem parent_enter (h : Searching g root marks tree cur ((w, some p) :: stack))
    (hw : w ∉ tree.map (·.1)) {q v : Nat} (hqv : TreeParent (tree ++ [(w, some p)]) q v) :
    g.Edge q v ∧ q ∈ (tree ++ [(w, some p)]).map (·.1) ∧
      position (tree ++ [(w, some p)]) q < position (tree ++ [(w, some p)]) v := by
  obtain ⟨hp, hpw, -⟩ := h.found
  rcases List.mem_append.1 hqv with hqv | hqv
  · obtain ⟨hedge, hq, hlt⟩ := h.parent q v hqv
    have hv : v ∈ tree.map (·.1) := List.mem_map.2 ⟨_, hqv, rfl⟩
    refine ⟨hedge, mem_snoc.2 (.inl hq), ?_⟩
    rwa [position_snoc_of_mem hq, position_snoc_of_mem hv]
  · obtain ⟨rfl, rfl⟩ : v = w ∧ q = p := by simpa using hqv
    refine ⟨hpw, mem_snoc.2 (.inl hp), ?_⟩
    rw [position_snoc_of_mem hp, position_snoc_self hw]
    exact position_lt_length hp

/-- The new vertex stands last, and the vertices between one above it and itself are, but for
itself, those between that one and the vertex entered before. -/
theorem between_enter (h : Searching g root marks tree cur ((w, some p) :: stack))
    (hw : w ∉ tree.map (·.1)) {a b c : Nat} (hac : Ancestor (tree ++ [(w, some p)]) a c)
    (hc : c ∈ (tree ++ [(w, some p)]).map (·.1))
    (hab : position (tree ++ [(w, some p)]) a ≤ position (tree ++ [(w, some p)]) b)
    (hbc : position (tree ++ [(w, some p)]) b ≤ position (tree ++ [(w, some p)]) c) :
    Ancestor (tree ++ [(w, some p)]) a b := by
  obtain ⟨hp, -, hpcur⟩ := h.found
  have hb : b ∈ (tree ++ [(w, some p)]).map (·.1) :=
    mem_of_position_lt (lt_of_le_of_lt hbc (position_lt_length hc))
  rcases mem_snoc.1 hc with hold | rfl
  · -- everything happens among the old vertices
    have hac := Ancestor.of_snoc hw h.parent_mem hac hold
    rw [position_snoc_of_mem (Ancestor.left_mem h.parent_mem hac hold)] at hab
    rw [position_snoc_of_mem hold] at hbc
    rcases mem_snoc.1 hb with hb | rfl
    · rw [position_snoc_of_mem hb] at hab hbc
      exact (h.between a b c hac hold hab hbc).snoc
    · have := position_lt_length hold
      rw [position_snoc_self hw] at hbc
      omega
  · rcases Ancestor.of_snoc_self hw hp h.parent_mem hac with rfl | hap
    · -- only the new vertex stands as late as itself
      rw [position_inj hb (le_antisymm hbc hab)]
      exact .refl
    · rcases mem_snoc.1 hb with hb | rfl
      · rw [position_snoc_of_mem (Ancestor.left_mem h.parent_mem hap hp),
          position_snoc_of_mem hb] at hab
        exact (h.between a b cur (hap.trans hpcur) h.cur_mem hab (h.cur_last b hb)).snoc
      · exact hac

theorem forward_enter (h : Searching g root marks tree cur ((w, some p) :: stack))
    (hw : w ∉ tree.map (·.1)) {v x : Nat} (hv : v ∈ (tree ++ [(w, some p)]).map (·.1))
    (hx : x ∈ (tree ++ [(w, some p)]).map (·.1)) (hvx : g.Edge v x)
    (hlt : position (tree ++ [(w, some p)]) v < position (tree ++ [(w, some p)]) x) :
    Ancestor (tree ++ [(w, some p)]) v x := by
  rcases mem_snoc.1 hv with hold | rfl
  · rcases mem_snoc.1 hx with hx | rfl
    · rw [position_snoc_of_mem hold, position_snoc_of_mem hx] at hlt
      exact (h.forward v x hold hx hvx hlt).snoc
    · -- the new vertex was found from `v` too, at a place of the stack not above the top
      exact (h.above_found (h.left v x hold hw hvx)).snoc.trans found_ancestor
  · have := position_lt_length hx
    rw [position_snoc_self hw] at hlt
    simp at this
    omega

/-- A fresh vertex becomes a child of the vertex it was found from. -/
theorem enter (h : Searching g root marks tree cur ((w, some p) :: stack))
    (hw : marks.isFresh w = true) :
    Searching g root (marks.mark w) (tree ++ [(w, some p)]) w
      (((g.succs w).filter (marks.mark w).isFresh).map (fun x => (x, some w)) ++ stack) := by
  obtain ⟨hsize, hnew⟩ := h.isFresh_iff.1 hw
  obtain ⟨hp, hpw, -⟩ := h.found
  refine
    { size := by simpa using h.size
      marked := ?marked
      nodup := nodup_snoc h.nodup hnew
      reached := ?reached
      root_mem := List.mem_append_left _ h.root_mem
      root_only := fun v hv => h.root_only v (by simpa using hv)
      parent := fun q v => h.parent_enter hnew
      between := fun a b c => h.between_enter hnew
      forward := fun v x => h.forward_enter hnew
      left := ?left
      cur_mem := mem_snoc.2 (.inr rfl)
      cur_last := ?cur_last
      pending := ?pending
      ordered := ?ordered }
  case marked =>
    intro v
    have hmark := @Marks.isMarked_mark marks w v
    simp only [Marks.isMarked, beq_iff_eq, h.size, hsize, and_true] at hmark
    rw [mem_snoc, h.marked, hmark]
  case reached =>
    intro v hv
    rcases mem_snoc.1 hv with hv | rfl
    · exact h.reached v hv
    · exact (h.reached p hp).step hpw
  case left =>
    intro v x hv hx hvx
    obtain ⟨hxnew, hxw⟩ := not_or.1 (mem_snoc.not.1 hx)
    rcases mem_snoc.1 hv with hv | rfl
    · rcases List.mem_cons.1 (h.left v x hv hxnew hvx) with heq | hin
      · exact absurd (Prod.mk.inj heq).1 hxw
      · exact List.mem_append_right _ hin
    · have hfresh := h.isFresh_iff.2 ⟨hvx.right_lt, hxnew⟩
      exact List.mem_append_left _
        (mem_found.2 ⟨hvx.2.2, Marks.isFresh_mark.2 ⟨hfresh, hxw⟩, rfl⟩)
  case cur_last =>
    intro v hv
    have := position_lt_length hv
    rw [position_snoc_self hnew]
    simp at this
    omega
  case pending =>
    intro x q hin
    rcases List.mem_append.1 hin with hin | hin
    · obtain ⟨hx, hfresh, rfl⟩ := mem_found.1 hin
      have hxs := (h.isFresh_iff.1 (Marks.isFresh_mark.1 hfresh).1).1
      exact ⟨w, rfl, mem_snoc.2 (.inr rfl), ⟨hpw.right_lt, hxs, hx⟩, .refl⟩
    · obtain ⟨m, rfl, hm, hmx, -⟩ := h.pending x q (List.mem_cons_of_mem _ hin)
      have hmp := h.above_found (List.mem_cons_of_mem _ hin)
      exact ⟨m, rfl, mem_snoc.2 (.inl hm), hmx, hmp.snoc.trans found_ancestor⟩
  case ordered =>
    refine List.pairwise_append.2 ⟨pairwise_found, ?_, ?_⟩
    · exact h.ordered.of_cons.imp fun hef q m hq hm => (hef q m hq hm).snoc
    · rintro ⟨y, _⟩ he ⟨z, _⟩ hf q m rfl rfl
      obtain rfl : q = w := Option.some.inj (mem_found.1 he).2.2
      exact (h.above_found (List.mem_cons_of_mem _ hf)).snoc.trans found_ancestor

end Enter

/-- When nothing is left to look at, all that can be reached has been entered. -/
theorem done (h : Searching g root marks tree cur []) : IsSearchTree g root tree where
  nodup := h.nodup
  mem_iff := by
    refine fun v => ⟨h.reached v, fun hv => ?_⟩
    refine hv.induction (P := fun v => v ∈ tree.map (·.1))
      (List.mem_map.2 ⟨_, h.root_mem, rfl⟩) fun x y _ hxy hx => ?_
    by_contra hy
    simpa using h.left x y hx hy hxy
  root_iff := by
    refine fun v => ⟨fun hv => ⟨List.mem_map.2 ⟨_, hv, rfl⟩, h.root_only v hv⟩, ?_⟩
    rintro ⟨-, rfl⟩
    exact h.root_mem
  parent_edge := fun p v hpv => (h.parent p v hpv).1
  parent_lt := fun p v hpv => (h.parent p v hpv).2.2
  forward := by
    intro v w hv hvw hlt
    have hw : w ∈ tree.map (·.1) := by
      by_contra hw
      simpa using h.left v w hv hw hvw
    exact h.forward v w hv hw hvw hlt
  between := h.between

/-- A search that is under way ends with a search tree. -/
theorem isSearchTree {m : Marks} {u : Nat} {rest todo : List (Nat × Option Nat)}
    (h : Searching g root m rest.reverse u todo) :
    IsSearchTree g root (spanningTreeFrom g m rest todo) := by
  match todo with
  | [] =>
    rw [spanningTreeFrom]
    exact h.done
  | (w, q) :: stack =>
    rw [spanningTreeFrom]
    by_cases hfresh : m.isFresh w = true
    · rw [if_pos hfresh]
      obtain ⟨p, rfl, -⟩ := h.pending w q (List.mem_cons_self ..)
      have hnext := h.enter hfresh
      rw [← List.reverse_cons] at hnext
      exact isSearchTree hnext
    · rw [if_neg hfresh]
      exact isSearchTree (h.skip (by simpa using hfresh))
termination_by (m.unmarked, todo.length)
decreasing_by
  · have := Marks.unmarked_mark hfresh
    exact Prod.Lex.left _ _ (by omega)
  · exact Prod.Lex.right _ (by simp)

/-- The search has begun when its root has been entered. -/
theorem start (h : root < g.size) :
    Searching g root ((Marks.none g.size).mark root) [(root, none)] root
      (((g.succs root).filter ((Marks.none g.size).mark root).isFresh).map
        fun x => (x, some root)) := by
  have hmem : ∀ v, v ∈ [(root, (none : Option Nat))].map (·.1) ↔ v = root := by simp
  have hfresh : ∀ v, ((Marks.none g.size).mark root).isFresh v = true ↔ v < g.size ∧ v ≠ root := by
    intro v
    rw [Marks.isFresh_mark, Marks.isFresh_none, decide_eq_true_iff]
  refine
    { size := by simp [Marks.none]
      marked := ?marked
      nodup := by simp
      reached := ?reached
      root_mem := by simp
      root_only := by simp
      parent := by simp [TreeParent]
      between := ?between
      forward := ?forward
      left := ?left
      cur_mem := by simp
      cur_last := by simp
      pending := ?pending
      ordered := pairwise_found }
  case marked =>
    intro v
    have hmark := @Marks.isMarked_mark (Marks.none g.size) root v
    rw [or_iff_right Marks.not_isMarked_none, Marks.isMarked, beq_iff_eq] at hmark
    rw [hmem, hmark]
    simp [Marks.none, h]
  case reached =>
    intro v hv
    obtain rfl := (hmem v).1 hv
    exact .refl h
  case between =>
    -- nobody has a parent, so `a` is `c`
    intro a b c hac hc hab hbc
    rcases Relation.ReflTransGen.cases_head hac with rfl | ⟨m, ham, _⟩
    · rw [position_inj hc (le_antisymm hab hbc)]
      exact .refl
    · simp [TreeParent] at ham
  case forward =>
    intro v w hv hw _ _
    obtain rfl := (hmem v).1 hv
    obtain rfl := (hmem w).1 hw
    exact .refl
  case left =>
    intro v w hv hw hvw
    obtain rfl := (hmem v).1 hv
    exact mem_found.2 ⟨hvw.2.2, (hfresh w).2 ⟨hvw.right_lt, mt (hmem w).2 hw⟩, rfl⟩
  case pending =>
    intro w q hin
    obtain ⟨hw, hwf, rfl⟩ := mem_found.1 hin
    exact ⟨root, rfl, (hmem root).2 rfl, ⟨h, ((hfresh w).1 hwf).1, hw⟩, .refl⟩

end Searching

/-- **The spanning tree of a depth-first search.**  From a vertex of the graph the search yields a
search tree. -/
theorem spanningTree_isSearchTree {g : Digraph} {root : Nat} (h : root < g.size) :
    IsSearchTree g root (g.spanningTree root) := by
  rw [spanningTree, spanningTreeFrom]
  simp only [Marks.isFresh_none, h, decide_true, if_true, List.append_nil]
  exact Searching.isSearchTree (Searching.start h)

/-- From anything else it yields nothing. -/
theorem spanningTree_eq_nil {g : Digraph} {root : Nat} (h : ¬ root < g.size) :
    g.spanningTree root = [] := by
  rw [spanningTree, spanningTreeFrom]
  simp [Marks.isFresh_none, h, spanningTreeFrom]

end Unroller.Digraph
