import Mathlib.Tactic
import Unroller.Digraph.Basic

/-!
# Walks and dominance

What can be said about walks and dominators without any algorithm.

* A walk can be cut at each of its vertices and two walks that meet can be joined (`Walk.split`,
  `Walk.append`), so `Reaches` is a preorder on the vertices.
* `Avoids g d a b` says that some walk from `a` to `b` does not pass through `d`: a reachable vertex
  is dominated by `d` exactly when no walk from the entry to it avoids `d` (`dominates_iff`).
* Dominance is a partial order on the reachable vertices (`Dominates.trans`, `Dominates.antisymm`).
* `IsImmediate` is the dominator closest to a vertex; there is at most one (`IsImmediate.unique`).
-/

namespace Unroller.Digraph

variable {g : Digraph} {a b c d x : Nat} {us vs ws : List Nat}

/-! ## Walks -/

theorem Edge.left_lt (h : g.Edge a b) : a < g.size := h.1

theorem Edge.right_lt (h : g.Edge a b) : b < g.size := h.2.1

theorem Walk.ne_nil (h : g.Walk a b vs) : vs ≠ [] := by
  cases h <;> simp

theorem Walk.left_lt (h : g.Walk a b vs) : a < g.size := by
  cases h with
  | single ha => exact ha
  | cons edge _ => exact edge.left_lt

theorem Walk.right_lt (h : g.Walk a b vs) : b < g.size := by
  induction h with
  | single ha => exact ha
  | cons _ _ ih => exact ih

theorem Walk.left_mem (h : g.Walk a b vs) : a ∈ vs := by
  cases h <;> simp

theorem Walk.right_mem (h : g.Walk a b vs) : b ∈ vs := by
  induction h with
  | single _ => simp
  | cons _ _ ih => exact List.mem_cons_of_mem _ ih

theorem Walk.edge (h : g.Edge a b) : g.Walk a b [a, b] :=
  .cons h (.single h.right_lt)

/-- Walks that meet can be joined; the vertex where they meet is listed once. -/
theorem Walk.append (h : g.Walk a b vs) (h' : g.Walk b c ws) :
    g.Walk a c (vs.dropLast ++ ws) := by
  induction h with
  | single _ => simpa using h'
  | @cons a m b vs edge walk ih =>
    have hne : vs ≠ [] := walk.ne_nil
    rw [List.dropLast_cons_of_ne_nil hne, List.cons_append]
    exact .cons edge (ih h')

/-- A walk can be cut at any of its vertices. -/
theorem Walk.split (h : g.Walk a b vs) (hx : x ∈ vs) :
    ∃ us ws, g.Walk a x us ∧ g.Walk x b ws ∧ (∀ y ∈ us, y ∈ vs) ∧ (∀ y ∈ ws, y ∈ vs) := by
  induction h with
  | single ha =>
    obtain rfl : x = _ := by simpa using hx
    exact ⟨_, _, .single ha, .single ha, fun y hy => hy, fun y hy => hy⟩
  | @cons a m b vs edge walk ih =>
    rcases List.mem_cons.1 hx with rfl | hx
    · refine ⟨[x], x :: vs, .single edge.left_lt, .cons edge walk, ?_, fun y hy => hy⟩
      intro y hy
      obtain rfl : y = x := by simpa using hy
      exact List.mem_cons_self ..
    · obtain ⟨us, ws, hus, hws, hsub, hsub'⟩ := ih hx
      refine ⟨a :: us, ws, .cons edge hus, hws, ?_, fun y hy => List.mem_cons_of_mem _ (hsub' y hy)⟩
      intro y hy
      rcases List.mem_cons.1 hy with rfl | hy
      · exact List.mem_cons_self ..
      · exact List.mem_cons_of_mem _ (hsub y hy)

/-! ## Reachability -/

theorem Reaches.refl (h : a < g.size) : g.Reaches a a := ⟨_, .single h⟩

theorem Reaches.right_lt (h : g.Reaches a b) : b < g.size := by
  obtain ⟨_, hw⟩ := h
  exact hw.right_lt

theorem Reaches.left_lt (h : g.Reaches a b) : a < g.size := by
  obtain ⟨_, hw⟩ := h
  exact hw.left_lt

theorem Reaches.trans (h : g.Reaches a b) (h' : g.Reaches b c) : g.Reaches a c := by
  obtain ⟨_, hw⟩ := h
  obtain ⟨_, hw'⟩ := h'
  exact ⟨_, hw.append hw'⟩

theorem Edge.reaches (h : g.Edge a b) : g.Reaches a b := ⟨_, .edge h⟩

theorem Reaches.step (h : g.Reaches a b) (h' : g.Edge b c) : g.Reaches a c :=
  h.trans h'.reaches

theorem Walk.preserves {P : Nat → Prop} (step : ∀ x y, g.Edge x y → P x → P y)
    (h : g.Walk a b vs) : P a → P b := by
  induction h with
  | single _ => exact id
  | cons edge _ ih => exact fun ha => ih (step _ _ edge ha)

/-- What holds at the start and passes along edges holds of everything reachable. -/
theorem Reaches.induction {P : Nat → Prop} (h : g.Reaches a b) (start : P a)
    (step : ∀ x y, g.Reaches a x → g.Edge x y → P x → P y) : P b := by
  obtain ⟨vs, hw⟩ := h
  have hboth := hw.preserves (P := fun v => g.Reaches a v ∧ P v)
    (fun x y hxy hx => ⟨hx.1.step hxy, step x y hx.1 hxy hx.2⟩)
  exact (hboth ⟨.refl hw.left_lt, start⟩).2

/-- The last edge of a walk that leaves its start. -/
theorem Reaches.eq_or_last (h : g.Reaches a b) : a = b ∨ ∃ c, g.Reaches a c ∧ g.Edge c b :=
  h.induction (P := fun v => a = v ∨ ∃ c, g.Reaches a c ∧ g.Edge c v) (.inl rfl)
    fun x _ hx hxy _ => .inr ⟨x, hx, hxy⟩

/-! ## Walks that avoid a vertex -/

/-- Some walk from `a` to `b` does not pass through `d`. -/
def Avoids (g : Digraph) (d a b : Nat) : Prop := ∃ vs, g.Walk a b vs ∧ d ∉ vs

theorem Avoids.refl (h : a < g.size) (hd : a ≠ d) : g.Avoids d a a :=
  ⟨[a], .single h, by simpa using hd.symm⟩

theorem Avoids.trans (h : g.Avoids d a b) (h' : g.Avoids d b c) : g.Avoids d a c := by
  obtain ⟨vs, hw, hd⟩ := h
  obtain ⟨ws, hw', hd'⟩ := h'
  refine ⟨_, hw.append hw', ?_⟩
  intro hmem
  rcases List.mem_append.1 hmem with hmem | hmem
  · exact hd (List.mem_of_mem_dropLast hmem)
  · exact hd' hmem

theorem Edge.avoids (h : g.Edge a b) (ha : a ≠ d) (hb : b ≠ d) : g.Avoids d a b :=
  ⟨[a, b], .edge h, by simp [ha.symm, hb.symm]⟩

theorem Avoids.reaches (h : g.Avoids d a b) : g.Reaches a b := by
  obtain ⟨vs, hw, _⟩ := h
  exact ⟨vs, hw⟩

theorem Avoids.ne_left (h : g.Avoids d a b) : a ≠ d := by
  obtain ⟨vs, hw, hd⟩ := h
  rintro rfl
  exact hd hw.left_mem

theorem Avoids.ne_right (h : g.Avoids d a b) : b ≠ d := by
  obtain ⟨vs, hw, hd⟩ := h
  rintro rfl
  exact hd hw.right_mem

/-- The first time a walk comes to a vertex other than its start. -/
theorem Walk.first_edge_into (h : g.Walk a b vs) (hx : x ∈ vs) (hne : a ≠ x) :
    ∃ c, g.Avoids x a c ∧ g.Edge c x := by
  induction h with
  | single _ => exact absurd (by simpa using hx) (Ne.symm hne)
  | @cons a m b vs edge walk ih =>
    by_cases hm : m = x
    · subst hm
      exact ⟨a, .refl edge.left_lt hne, edge⟩
    · have hx : x ∈ vs := by
        rcases List.mem_cons.1 hx with rfl | hx
        · exact absurd rfl hne
        · exact hx
      obtain ⟨c, hav, hcx⟩ := ih hx hm
      exact ⟨c, (edge.avoids hne hm).trans hav, hcx⟩

/-! ## Dominance -/

theorem dominates_iff {r : Nat} :
    g.Dominates r d b ↔ g.Reaches r b ∧ ¬ g.Avoids d r b := by
  constructor
  · rintro ⟨hr, hall⟩
    refine ⟨hr, ?_⟩
    rintro ⟨vs, hw, hd⟩
    exact hd (hall vs hw)
  · rintro ⟨hr, hno⟩
    refine ⟨hr, fun vs hw => ?_⟩
    by_contra hd
    exact hno ⟨vs, hw, hd⟩

variable {r : Nat}

theorem Dominates.reaches (h : g.Dominates r d b) : g.Reaches r b := h.1

theorem Dominates.refl (h : g.Reaches r b) : g.Dominates r b b :=
  ⟨h, fun _ hw => hw.right_mem⟩

theorem dominates_entry (h : g.Reaches r b) : g.Dominates r r b :=
  ⟨h, fun _ hw => hw.left_mem⟩

/-- A dominator lies on some walk, so it is reachable itself. -/
theorem Dominates.reaches_left (h : g.Dominates r d b) : g.Reaches r d := by
  obtain ⟨⟨vs, hw⟩, hall⟩ := h
  obtain ⟨us, _, hus, _⟩ := hw.split (hall vs hw)
  exact ⟨us, hus⟩

theorem Dominates.trans (h : g.Dominates r a b) (h' : g.Dominates r b c) :
    g.Dominates r a c := by
  refine ⟨h'.reaches, fun vs hw => ?_⟩
  obtain ⟨us, _, hus, _, hsub, _⟩ := hw.split (h'.2 vs hw)
  exact hsub a (h.2 us hus)

/-- A strict dominator also dominates the reachable vertices with an edge to the one it
dominates. -/
theorem Dominates.of_edge (h : g.Dominates r d b) (hne : d ≠ b) (hc : g.Reaches r c)
    (hcb : g.Edge c b) : g.Dominates r d c := by
  rw [dominates_iff] at h ⊢
  exact ⟨hc, fun hav => h.2 (hav.trans (hcb.avoids hav.ne_right hne.symm))⟩

theorem Dominates.antisymm (h : g.Dominates r a b) (h' : g.Dominates r b a) : a = b := by
  by_contra hne
  obtain ⟨vs, hw⟩ := h.reaches
  by_cases hrb : r = b
  · -- the entry is dominated by itself only
    subst hrb
    have hmem := h.2 [r] (.single hw.left_lt)
    exact hne (by simpa using hmem)
  · -- a first walk to `b` meets `a` before it, and that part does not pass through `b`
    obtain ⟨c, hav, hcb⟩ := hw.first_edge_into hw.right_mem hrb
    have hca : g.Dominates r a c := h.of_edge hne hav.reaches hcb
    obtain ⟨vs, hw, hb⟩ := hav
    obtain ⟨us, _, hus, _, hsub, _⟩ := hw.split (hca.2 vs hw)
    exact hb (hsub b (h'.2 us hus))

/-- `d` is a strict dominator of `b` that all strict dominators of `b` dominate. -/
def IsImmediate (g : Digraph) (r d b : Nat) : Prop :=
  d ≠ b ∧ g.Dominates r d b ∧ ∀ a, a ≠ b → g.Dominates r a b → g.Dominates r a d

theorem IsImmediate.unique (h : g.IsImmediate r a c) (h' : g.IsImmediate r b c) : a = b :=
  (h'.2.2 a h.1 h.2.1).antisymm (h.2.2 b h'.1 h'.2.1)

/-- The entry has no strict dominator. -/
theorem Dominates.eq_entry (h : g.Dominates r d r) : d = r := by
  have hmem := h.2 [r] (.single h.reaches.left_lt)
  simpa using hmem

end Unroller.Digraph
