import Mathlib.Tactic
import Unroller.Proofs.Digraph.LoopForest

/-!
# How loops are nested

Enclosing loops are found by size: the smallest other loop that contains a header is taken for the
one right around it.  That is right because natural loops never overlap without one containing the
other.

* `IsNaturalLoop.dominates_header`: a vertex outside a loop that dominates a member dominates the
  header. So of two loops that share a member, one contains the header of the other.
* `IsLoopOf.subset_of_header_mem`: a loop that contains the header of another one contains all of
  it.
* `Laminar`: what these two facts say of a list of loops; `laminar_loopForest`: the natural loops of
  a digraph are such a list.  All that follows is about laminar lists.
* `enclosing?_eq_some_iff`, `innermost?_eq_some_iff`: the smallest loop is the innermost one.
* `hasInner_iff`: a loop encloses another one exactly when it strictly contains one.
* `depthFrom_eq`: the depth is the number of loops around the header, and following the enclosing
  loops ends; `length_around_lt`: so inner loops are deeper.
* `depth_eq_none_iff`: in any list of loops, a depth is missing only where following ends nowhere.
* `Nested`: all of it together.
-/

namespace Unroller

/-- All members of `l` are members of `m`, which has others besides. -/
def NaturalLoop.StrictlyWithin (l m : NaturalLoop) : Prop :=
  l.blocks ⊆ m.blocks ∧ ¬ m.blocks ⊆ l.blocks

/-! ## Two loops of a digraph -/

namespace Digraph

variable {g : Digraph} {entry : Nat} {l m : NaturalLoop} {d v : Nat}

/-- The header leads to each member inside the loop. -/
theorem IsNaturalLoop.exists_walk_inside (hm : g.IsNaturalLoop entry m) (hv : v ∈ m.blocks) :
    ∃ vs, g.Walk m.header v vs ∧ ∀ x ∈ vs, x ∈ m.blocks := by
  have hheader : ∃ vs, g.Walk m.header m.header vs ∧ ∀ x ∈ vs, x ∈ m.blocks :=
    ⟨[m.header], .single hm.header_reaches.right_lt, by simpa using hm.header_mem⟩
  refine (hm.reaches hv).induction
    (P := fun v => v ∈ m.blocks → ∃ vs, g.Walk m.header v vs ∧ ∀ x ∈ vs, x ∈ m.blocks) ?_ ?_ hv
  · intro hentry
    rw [← hm.eq_header_of_entry_mem hentry]
    exact hheader
  · intro x y hx hxy ih hy
    by_cases hyh : y = m.header
    · exact hyh ▸ hheader
    · -- the step before is inside as well, since only the header is entered from outside
      obtain ⟨vs, hw, hin⟩ := ih (hm.closed x y hy hyh hx hxy)
      refine ⟨vs.dropLast ++ [x, y], hw.append (.edge hxy), fun z hz => ?_⟩
      simp only [List.mem_append, List.mem_cons, List.not_mem_nil, or_false] at hz
      rcases hz with hz | rfl | rfl
      · exact hin z (List.mem_of_mem_dropLast hz)
      · exact hin z hw.right_mem
      · exact hy

/-- A vertex outside a loop that dominates a member dominates the header. -/
theorem IsNaturalLoop.dominates_header (hm : g.IsNaturalLoop entry m) (hv : v ∈ m.blocks)
    (hd : d ∉ m.blocks) (hdom : g.Dominates entry d v) : g.Dominates entry d m.header := by
  obtain ⟨vs, hw, hin⟩ := hm.exists_walk_inside hv
  have hrest : g.Avoids d m.header v := ⟨vs, hw, fun hmem => hd (hin d hmem)⟩
  rw [dominates_iff] at hdom ⊢
  exact ⟨hm.header_reaches, fun hav => hdom.2 (hav.trans hrest)⟩

/-- Of two loops that share a member, one contains the header of the other. -/
theorem header_mem_or_header_mem (hl : g.IsNaturalLoop entry l) (hm : g.IsNaturalLoop entry m)
    (hvl : v ∈ l.blocks) (hvm : v ∈ m.blocks) : l.header ∈ m.blocks ∨ m.header ∈ l.blocks := by
  by_contra hnot
  rw [not_or] at hnot
  have hlm := hm.dominates_header hvm hnot.1 (hl.dominated v hvl)
  have hml := hl.dominates_header hvl hnot.2 (hm.dominated v hvm)
  exact hnot.1 (hlm.antisymm hml ▸ hm.header_mem)

/-- Loops that contain each other's headers have the same header. -/
theorem header_eq_of_mem (hl : g.IsNaturalLoop entry l) (hm : g.IsNaturalLoop entry m)
    (hlm : l.header ∈ m.blocks) (hml : m.header ∈ l.blocks) : l.header = m.header :=
  (hl.dominated _ hml).antisymm (hm.dominated _ hlm)

/-- **A loop that contains the header** of another one contains all of it: a member of the inner
loop leads back to its header without passing the outer one. -/
theorem IsLoopOf.subset_of_header_mem (hl : g.IsLoopOf entry l) (hl' : g.IsNaturalLoop entry l)
    (hm : g.IsNaturalLoop entry m) (hne : l.header ≠ m.header) (hmem : l.header ∈ m.blocks) :
    l.blocks ⊆ m.blocks := by
  have hout : m.header ∉ l.blocks := fun h => hne (header_eq_of_mem hl' hm hmem h)
  intro v hv
  rcases (hl.mem_blocks v).1 hv with rfl | ⟨hreach, n, hback, vs, hw, hav⟩
  · exact hmem
  · induction hw with
    | single _ => exact hm.closed _ _ hmem hne hreach hback.2.1
    | @cons a b n vs hedge hw ih =>
      simp only [List.mem_cons, not_or] at hav
      have hb : b ∈ l.blocks :=
        (hl.mem_blocks b).2 (.inr ⟨hreach.step hedge, n, hback, vs, hw, hav.2⟩)
      have hbm : b ≠ m.header := fun h => hout (h ▸ hb)
      exact hm.closed a b (ih hb (hreach.step hedge) hback hav.2) hbm hreach hedge

end Digraph

/-! ## The smallest loop of a list -/

namespace NaturalLoop

theorem foldl_smaller_spec (loops : List NaturalLoop) (best : NaturalLoop) :
    ∃ o, loops.foldl smaller (some best) = some o ∧ o ∈ best :: loops ∧
      ∀ m ∈ best :: loops, o.size ≤ m.size := by
  induction loops generalizing best with
  | nil => exact ⟨best, rfl, by simp, by simp⟩
  | cons l loops ih =>
    by_cases hle : best.size ≤ l.size
    · obtain ⟨o, ho, hmem, hmin⟩ := ih best
      refine ⟨o, by simpa [smaller, hle] using ho, ?_, ?_⟩
      · rcases List.mem_cons.1 hmem with rfl | hmem
        · exact List.mem_cons_self
        · exact List.mem_cons_of_mem _ (List.mem_cons_of_mem _ hmem)
      · have hbest := hmin best List.mem_cons_self
        simp only [List.forall_mem_cons] at hmin ⊢
        exact ⟨hbest, hbest.trans hle, hmin.2⟩
    · obtain ⟨o, ho, hmem, hmin⟩ := ih l
      refine ⟨o, by simpa [smaller, hle] using ho, List.mem_cons_of_mem _ hmem, ?_⟩
      have hl := hmin l List.mem_cons_self
      simp only [List.forall_mem_cons] at hmin ⊢
      exact ⟨by omega, hl, hmin.2⟩

theorem smallest?_eq_none_iff {loops : List NaturalLoop} : smallest? loops = none ↔ loops = [] := by
  cases loops with
  | nil => simp [smallest?]
  | cons l loops =>
    obtain ⟨o, ho, _⟩ := foldl_smaller_spec loops l
    simp [smallest?, smaller, ho]

/-- The smallest loop is one of the list, and no other is smaller. -/
theorem of_smallest?_eq_some {loops : List NaturalLoop} {o : NaturalLoop}
    (h : smallest? loops = some o) : o ∈ loops ∧ ∀ m ∈ loops, o.size ≤ m.size := by
  cases loops with
  | nil => simp [smallest?] at h
  | cons l loops =>
    obtain ⟨o', ho, hspec⟩ := foldl_smaller_spec loops l
    obtain rfl : o' = o := by simpa [smallest?, smaller, ho] using h
    exact hspec

end NaturalLoop

namespace LoopForest

/-- The loops that contain a vertex. -/
def around (f : LoopForest) (v : Nat) : List NaturalLoop := f.loops.filter fun m => m.contains v

/-! ## Laminar lists of loops -/

/-- Loops are listed by their numbers, and two that share a member lie one within the other. -/
structure Laminar (f : LoopForest) : Prop where
  numbered : (f.loops.map NaturalLoop.index).Pairwise (· < ·)
  contains_iff : ∀ l ∈ f.loops, ∀ v, l.contains v = true ↔ v ∈ l.blocks
  nodup_blocks : ∀ l ∈ f.loops, l.blocks.Nodup
  header_mem : ∀ l ∈ f.loops, l.header ∈ l.blocks
  subset : ∀ l ∈ f.loops, ∀ m ∈ f.loops, l.header ∈ m.blocks → l.blocks ⊆ m.blocks
  antisymm : ∀ l ∈ f.loops, ∀ m ∈ f.loops, l.header ∈ m.blocks → m.header ∈ l.blocks → l = m
  meet : ∀ l ∈ f.loops, ∀ m ∈ f.loops, ∀ v ∈ l.blocks, v ∈ m.blocks →
    l.header ∈ m.blocks ∨ m.header ∈ l.blocks

open Unroller.Digraph in
/-- **The natural loops of a digraph** are laminar. -/
theorem laminar_loopForest (g : Digraph) (entry : Nat) :
    (g.loopForest (g.dominatorTree entry) entry).Laminar := by
  have hheaders := nodup_headers (g := g) (g.dominatorTree entry) entry
  have hsame := List.inj_on_of_nodup_map hheaders
  refine ⟨index_loopForest (g := g) (g.dominatorTree entry) entry ▸ List.pairwise_lt_range,
    fun l hl => (isLoopOf_of_mem hl).contains_iff, fun l hl => (isLoopOf_of_mem hl).nodup_blocks,
    fun l hl => (isNaturalLoop_of_mem hl).header_mem, ?_, ?_, ?_⟩
  · intro l hl m hm hmem
    by_cases hne : l.header = m.header
    · rw [hsame hl hm hne]
      exact List.Subset.refl _
    · exact (isLoopOf_of_mem hl).subset_of_header_mem (isNaturalLoop_of_mem hl)
        (isNaturalLoop_of_mem hm) hne hmem
  · intro l hl m hm hlm hml
    exact hsame hl hm (header_eq_of_mem (isNaturalLoop_of_mem hl) (isNaturalLoop_of_mem hm) hlm hml)
  · intro l hl m hm v hvl hvm
    exact header_mem_or_header_mem (isNaturalLoop_of_mem hl) (isNaturalLoop_of_mem hm) hvl hvm

variable {f : LoopForest} {l m o : NaturalLoop} {v : Nat}

namespace Laminar

variable (hf : f.Laminar)

include hf

theorem nodup_indices : (f.loops.map NaturalLoop.index).Nodup :=
  hf.numbered.imp fun h => Nat.ne_of_lt h

theorem nodup : f.loops.Nodup := hf.nodup_indices.of_map

theorem eq_of_index (hl : l ∈ f.loops) (hm : m ∈ f.loops) (h : l.index = m.index) : l = m :=
  List.inj_on_of_nodup_map hf.nodup_indices hl hm h

theorem eq_of_header (hl : l ∈ f.loops) (hm : m ∈ f.loops) (h : l.header = m.header) : l = m :=
  hf.antisymm l hl m hm (h ▸ hf.header_mem m hm) (h ▸ hf.header_mem l hl)

theorem strictlyWithin_iff (hl : l ∈ f.loops) (hm : m ∈ f.loops) :
    l.StrictlyWithin m ↔ l.header ∈ m.blocks ∧ m ≠ l := by
  constructor
  · rintro ⟨hsub, hnot⟩
    refine ⟨hsub (hf.header_mem l hl), ?_⟩
    rintro rfl
    exact hnot hsub
  · rintro ⟨hmem, hne⟩
    refine ⟨hf.subset l hl m hm hmem, fun hsub => hne ?_⟩
    exact hf.antisymm m hm l hl (hsub (hf.header_mem m hm)) hmem

theorem strictlyWithin_or (hl : l ∈ f.loops) (hm : m ∈ f.loops) (hne : l ≠ m) (hvl : v ∈ l.blocks)
    (hvm : v ∈ m.blocks) : l.StrictlyWithin m ∨ m.StrictlyWithin l := by
  rw [hf.strictlyWithin_iff hl hm, hf.strictlyWithin_iff hm hl]
  exact (hf.meet l hl m hm v hvl hvm).imp (fun h => ⟨h, hne.symm⟩) fun h => ⟨h, hne⟩

theorem disjoint_or_strictlyWithin (hl : l ∈ f.loops) (hm : m ∈ f.loops) (hne : l ≠ m) :
    l.blocks.Disjoint m.blocks ∨ l.StrictlyWithin m ∨ m.StrictlyWithin l := by
  by_cases hd : l.blocks.Disjoint m.blocks
  · exact .inl hd
  · simp only [List.Disjoint, not_forall, not_false_eq_true] at hd
    obtain ⟨v, hvl, hvm, _⟩ := hd
    exact .inr (hf.strictlyWithin_or hl hm hne hvl hvm)

theorem size_lt (hl : l ∈ f.loops) (h : l.StrictlyWithin m) : l.size < m.size := by
  have hperm := (hf.nodup_blocks l hl).subperm h.1
  refine lt_of_le_of_ne hperm.length_le fun heq => h.2 ?_
  exact (hperm.perm_of_length_le (Nat.le_of_eq heq.symm)).symm.subset

/-- **The smallest of the loops around a vertex** is the innermost of them. -/
theorem smallest?_eq_some_iff {around : List NaturalLoop}
    (haround : ∀ m ∈ around, m ∈ f.loops ∧ v ∈ m.blocks) :
    NaturalLoop.smallest? around = some o ↔
      o ∈ around ∧ ∀ m ∈ around, m ≠ o → o.StrictlyWithin m := by
  have hinner : ∀ o, NaturalLoop.smallest? around = some o →
      o ∈ around ∧ ∀ m ∈ around, m ≠ o → o.StrictlyWithin m := by
    intro o ho
    obtain ⟨hmem, hmin⟩ := NaturalLoop.of_smallest?_eq_some ho
    refine ⟨hmem, fun m hm hne => ?_⟩
    obtain ⟨ho, hvo⟩ := haround o hmem
    obtain ⟨hm', hvm⟩ := haround m hm
    rcases hf.strictlyWithin_or hm' ho hne hvm hvo with hlt | hgt
    · exact absurd (hmin m hm) (Nat.not_le.2 (hf.size_lt hm' hlt))
    · exact hgt
  refine ⟨hinner o, fun ⟨hmem, hall⟩ => ?_⟩
  cases hs : NaturalLoop.smallest? around with
  | none => simp [NaturalLoop.smallest?_eq_none_iff.1 hs] at hmem
  | some o' =>
    obtain ⟨hmem', hall'⟩ := hinner o' hs
    by_contra hne
    have hne : o ≠ o' := fun h => hne (h ▸ rfl)
    -- two loops cannot each lie within the other
    exact (hall' o hmem hne).2 (hall o' hmem' hne.symm).1

theorem mem_around : m ∈ f.around v ↔ m ∈ f.loops ∧ v ∈ m.blocks := by
  rw [around, List.mem_filter]
  exact and_congr_right fun hm => hf.contains_iff m hm v

theorem nodup_around (v : Nat) : (f.around v).Nodup := hf.nodup.filter _

/-- The loops among which the enclosing one is looked for. -/
theorem mem_enclosing (hl : l ∈ f.loops) :
    m ∈ f.loops.filter (fun m => m.index != l.index && m.contains l.header) ↔
      m ∈ f.loops ∧ l.StrictlyWithin m := by
  rw [List.mem_filter, Bool.and_eq_true, bne_iff_ne]
  refine and_congr_right fun hm => ?_
  rw [hf.contains_iff m hm, hf.strictlyWithin_iff hl hm, and_comm]
  refine and_congr_right fun _ => not_congr ⟨hf.eq_of_index hm hl, ?_⟩
  rintro rfl
  rfl

/-- **The enclosing loop** is the innermost of those that strictly contain the loop. -/
theorem enclosing?_eq_some_iff (hl : l ∈ f.loops) :
    f.enclosing? l = some o ↔ o ∈ f.loops ∧ l.StrictlyWithin o ∧
      ∀ m ∈ f.loops, l.StrictlyWithin m → m ≠ o → o.StrictlyWithin m := by
  rw [enclosing?, hf.smallest?_eq_some_iff (v := l.header) fun m hm => ?_]
  · simp only [hf.mem_enclosing hl, and_assoc, and_imp]
  · obtain ⟨hm, hlm⟩ := (hf.mem_enclosing hl).1 hm
    exact ⟨hm, hlm.1 (hf.header_mem l hl)⟩

theorem enclosing?_eq_none_iff (hl : l ∈ f.loops) :
    f.enclosing? l = none ↔ ∀ m ∈ f.loops, ¬ l.StrictlyWithin m := by
  rw [enclosing?, NaturalLoop.smallest?_eq_none_iff, List.eq_nil_iff_forall_not_mem]
  simp only [hf.mem_enclosing hl, not_and]

/-- **The innermost loop around a vertex** lies within all others. -/
theorem innermost?_eq_some_iff :
    f.innermost? v = some o ↔ o ∈ f.loops ∧ v ∈ o.blocks ∧
      ∀ m ∈ f.loops, v ∈ m.blocks → m ≠ o → o.StrictlyWithin m := by
  show NaturalLoop.smallest? (f.around v) = some o ↔ _
  rw [hf.smallest?_eq_some_iff fun m hm => hf.mem_around.1 hm]
  simp only [hf.mem_around, and_assoc, and_imp]

theorem innermost?_eq_none_iff : f.innermost? v = none ↔ ∀ m ∈ f.loops, v ∉ m.blocks := by
  show NaturalLoop.smallest? (f.around v) = none ↔ _
  rw [NaturalLoop.smallest?_eq_none_iff, List.eq_nil_iff_forall_not_mem]
  simp only [hf.mem_around, not_and]

/-- A loop with another one inside encloses one directly: the largest of them, for which nothing is
left in between. -/
theorem exists_enclosing?_eq (hl : l ∈ f.loops) (hm : m ∈ f.loops) (hml : m.StrictlyWithin l) :
    ∃ m' ∈ f.loops, f.enclosing? m' = some l := by
  induction hgap : l.size - m.size using Nat.strong_induction_on generalizing m with
  | _ gap ih =>
    cases ho : f.enclosing? m with
    | none => exact absurd hml ((hf.enclosing?_eq_none_iff hm).1 ho l hl)
    | some o =>
      obtain ⟨hmem, hmo, hall⟩ := (hf.enclosing?_eq_some_iff hm).1 ho
      by_cases hlo : l = o
      · exact ⟨m, hm, hlo ▸ ho⟩
      · have hol := hall l hl hml hlo
        have h₁ := hf.size_lt hm hmo
        have h₂ := hf.size_lt hmem hol
        exact ih (l.size - o.size) (by omega) hmem hol rfl

/-- **Whether a loop has inner loops.** -/
theorem hasInner_iff (hl : l ∈ f.loops) :
    f.hasInner l = true ↔ ∃ m ∈ f.loops, m.StrictlyWithin l := by
  simp only [hasInner, List.any_eq_true, Option.any_eq_true, beq_iff_eq]
  constructor
  · rintro ⟨m, hm, o, ho, hindex⟩
    obtain ⟨hmem, hmo, _⟩ := (hf.enclosing?_eq_some_iff hm).1 ho
    obtain rfl := hf.eq_of_index hmem hl hindex
    exact ⟨m, hm, hmo⟩
  · rintro ⟨m, hm, hml⟩
    obtain ⟨m', hm', ho⟩ := hf.exists_enclosing?_eq hl hm hml
    exact ⟨m', hm', l, ho, rfl⟩

/-! ## Depth -/

/-- The loops around a header are the loop itself and those that strictly contain it. -/
theorem mem_around_header (hl : l ∈ f.loops) :
    m ∈ f.around l.header ↔ m = l ∨ m ∈ f.loops ∧ l.StrictlyWithin m := by
  rw [hf.mem_around]
  constructor
  · rintro ⟨hm, hmem⟩
    by_cases heq : m = l
    · exact .inl heq
    · exact .inr ⟨hm, (hf.strictlyWithin_iff hl hm).2 ⟨hmem, heq⟩⟩
  · rintro (rfl | ⟨hm, hlm⟩)
    · exact ⟨hl, hf.header_mem m hl⟩
    · exact ⟨hm, hlm.1 (hf.header_mem l hl)⟩

/-- What is around the header of an outer loop is around that of an inner one, and so is the inner
loop besides. -/
theorem cons_around_subset (hl : l ∈ f.loops) (ho : o ∈ f.loops) (hlo : l.StrictlyWithin o) :
    (l :: f.around o.header).Nodup ∧ l :: f.around o.header ⊆ f.around l.header := by
  refine ⟨List.nodup_cons.2 ⟨fun hmem => ?_, hf.nodup_around _⟩, List.cons_subset.2 ⟨?_, ?_⟩⟩
  · exact hlo.2 (hf.subset o ho l hl (hf.mem_around.1 hmem).2)
  · exact (hf.mem_around_header hl).2 (.inl rfl)
  · intro m hmem
    obtain ⟨hm, hom⟩ := hf.mem_around.1 hmem
    exact hf.mem_around.2 ⟨hm, hf.subset o ho m hm hom (hlo.1 (hf.header_mem l hl))⟩

/-- An outermost loop is the only one around its header. -/
theorem length_around_of_outermost (hl : l ∈ f.loops) (hnone : f.enclosing? l = none) :
    (f.around l.header).length = 1 := by
  have hperm : (f.around l.header).Perm [l] := by
    refine (List.perm_ext_iff_of_nodup (hf.nodup_around _) (List.nodup_singleton l)).2 fun m => ?_
    rw [hf.mem_around_header hl, List.mem_singleton]
    refine ⟨fun h => h.resolve_right ?_, .inl⟩
    exact fun ⟨hm, hlm⟩ => (hf.enclosing?_eq_none_iff hl).1 hnone m hm hlm
  exact hperm.length_eq

/-- One more loop is around a header than around the header of the enclosing loop. -/
theorem length_around_of_enclosing (hl : l ∈ f.loops) (hsome : f.enclosing? l = some o) :
    (f.around l.header).length = (f.around o.header).length + 1 := by
  obtain ⟨ho, hlo, hall⟩ := (hf.enclosing?_eq_some_iff hl).1 hsome
  obtain ⟨hnodup, hsub⟩ := hf.cons_around_subset hl ho hlo
  have hperm : (f.around l.header).Perm (l :: f.around o.header) := by
    refine (List.perm_ext_iff_of_nodup (hf.nodup_around _) hnodup).2 fun m => ⟨fun hmem => ?_,
      fun hmem => hsub hmem⟩
    rw [List.mem_cons, hf.mem_around_header ho]
    refine ((hf.mem_around_header hl).1 hmem).imp_right fun ⟨hm, hlm⟩ => ?_
    by_cases hmo : m = o
    · exact .inl hmo
    · exact .inr ⟨hm, hall m hm hlm hmo⟩
  exact hperm.length_eq

/-- **The depth** of a loop is the number of loops around its header, however much further the
enclosing loops may be followed. -/
theorem depthFrom_eq (hl : l ∈ f.loops) {fuel : Nat}
    (hfuel : (f.around l.header).length ≤ fuel) :
    f.depthFrom fuel l = some (f.around l.header).length := by
  induction fuel generalizing l with
  | zero =>
    have hself : 0 < (f.around l.header).length :=
      List.length_pos_of_mem ((hf.mem_around_header hl).2 (.inl rfl))
    omega
  | succ fuel ih =>
    rw [depthFrom]
    cases ho : f.enclosing? l with
    | none =>
      simp only
      rw [hf.length_around_of_outermost hl ho]
    | some o =>
      have hlength := hf.length_around_of_enclosing hl ho
      have hmem := ((hf.enclosing?_eq_some_iff hl).1 ho).1
      simp only
      rw [ih hmem (by omega), hlength, Option.map_some, Nat.add_comm]

theorem depthFrom_eq_of_count_le (hl : l ∈ f.loops) {fuel : Nat} (hfuel : f.count ≤ fuel) :
    f.depthFrom fuel l = some (f.around l.header).length :=
  hf.depthFrom_eq hl ((List.length_filter_le _ _).trans hfuel)

theorem depth_eq (hl : l ∈ f.loops) : f.depth l = some (f.around l.header).length :=
  hf.depthFrom_eq_of_count_le hl (Nat.le_succ _)

/-- Inner loops are deeper. -/
theorem length_around_lt (hl : l ∈ f.loops) (ho : o ∈ f.loops) (hlo : l.StrictlyWithin o) :
    (f.around o.header).length < (f.around l.header).length := by
  obtain ⟨hnodup, hsub⟩ := hf.cons_around_subset hl ho hlo
  simpa using (hnodup.subperm hsub).length_le

end Laminar

/-! ## Where nesting does not end -/

/-- The loop come to by going on to the enclosing loop `n` times. -/
def outward (f : LoopForest) (l : NaturalLoop) : Nat → Option NaturalLoop
  | 0 => some l
  | n + 1 => (f.outward l n).bind f.enclosing?

theorem outward_add (f : LoopForest) (l : NaturalLoop) (m n : Nat) :
    f.outward l (m + n) = (f.outward l m).bind (f.outward · n) := by
  induction n with
  | zero => simp [outward]
  | succ n ih =>
    rw [← Nat.add_assoc, outward, ih]
    cases f.outward l m <;> simp [outward]

theorem isSome_outward_of_le {f : LoopForest} {l : NaturalLoop} {m n : Nat}
    (h : (f.outward l m).isSome) (hn : n ≤ m) : (f.outward l n).isSome := by
  obtain ⟨k, rfl⟩ := Nat.exists_eq_add_of_le hn
  rw [outward_add] at h
  exact Option.isSome_of_isSome_bind h

theorem depthFrom_eq_none_iff (f : LoopForest) (l : NaturalLoop) (n : Nat) :
    f.depthFrom n l = none ↔ (f.outward l n).isSome := by
  induction n generalizing l with
  | zero => simp [depthFrom, outward]
  | succ n ih =>
    rw [depthFrom, Nat.add_comm, outward_add]
    simp only [outward, Option.bind_some]
    cases f.enclosing? l with
    | none => simp
    | some o => simp [ih o]

/-- A loop met again on the way outward is met again and again. -/
theorem isSome_outward_of_eq {f : LoopForest} {l : NaturalLoop} {m n : Nat}
    (hm : (f.outward l m).isSome) (heq : f.outward l (m + (n + 1)) = f.outward l m) (k : Nat) :
    (f.outward l k).isSome := by
  obtain ⟨o, ho⟩ := Option.isSome_iff_exists.1 hm
  have hperiod : f.outward o (n + 1) = some o := by
    rw [outward_add, ho] at heq
    simpa using heq
  have hperiods : ∀ r, f.outward o (r * (n + 1)) = some o := by
    intro r
    induction r with
    | zero => simp [outward]
    | succ r ih => rw [Nat.add_one_mul, outward_add, ih, Option.bind_some, hperiod]
  refine isSome_outward_of_le (m := m + k * (n + 1)) ?_ ?_
  · rw [outward_add, ho, Option.bind_some, hperiods]
    rfl
  · have := Nat.le_mul_of_pos_right k (Nat.add_one_pos n)
    omega

/-- **No depth is missing for want of steps.**  A loop without a depth has none however far the
enclosing loops are followed. -/
theorem depth_eq_none_iff (f : LoopForest) (l : NaturalLoop) :
    f.depth l = none ↔ ∀ n, f.depthFrom n l = none := by
  refine ⟨fun h n => ?_, fun h => h _⟩
  rw [depth, depthFrom_eq_none_iff] at h
  rw [depthFrom_eq_none_iff]
  -- more steps than there are loops come to one of them twice
  have hmem : ∀ i ∈ Finset.range (f.count + 1),
      f.outward l (i + 1) ∈ f.loops.toFinset.image some := by
    intro i hi
    obtain ⟨o, ho⟩ := Option.isSome_iff_exists.1
      (isSome_outward_of_le h (n := i + 1) (by simpa [Nat.lt_succ_iff] using hi))
    have hstep := ho
    rw [outward] at hstep
    obtain ⟨m, _, hencl⟩ := Option.bind_eq_some_iff.1 hstep
    rw [ho, Finset.mem_image]
    have hinside := (NaturalLoop.of_smallest?_eq_some hencl).1
    exact ⟨o, List.mem_toFinset.2 (List.mem_of_mem_filter hinside), rfl⟩
  have hcard : (f.loops.toFinset.image some).card < (Finset.range (f.count + 1)).card := by
    rw [Finset.card_range]
    exact Nat.lt_succ_of_le (Finset.card_image_le.trans (List.toFinset_card_le _))
  obtain ⟨i, hi, j, hj, hne, heq⟩ := Finset.exists_ne_map_eq_of_card_lt_of_maps_to hcard hmem
  wlog hij : i < j generalizing i j
  · exact this j hj i hi hne.symm heq.symm (by omega)
  obtain ⟨k, rfl⟩ := Nat.exists_eq_add_of_lt hij
  refine isSome_outward_of_eq (m := i + 1) (n := k) ?_ ?_ n
  · exact isSome_outward_of_le h (by simpa [Nat.lt_succ_iff] using hi)
  · rw [heq]
    congr 1
    omega

/-! ## The forest -/

/-- What the queries of a forest answer about the nesting of its loops. -/
structure Nested (f : LoopForest) : Prop where
  /-- Different loops are disjoint, or one lies strictly within the other. -/
  laminar : ∀ l ∈ f.loops, ∀ m ∈ f.loops, l ≠ m →
    l.blocks.Disjoint m.blocks ∨ l.StrictlyWithin m ∨ m.StrictlyWithin l
  /-- The enclosing loop strictly contains the loop and lies strictly within all others that do. -/
  enclosing : ∀ l ∈ f.loops, ∀ o, f.enclosing? l = some o ↔ o ∈ f.loops ∧ l.StrictlyWithin o ∧
    ∀ m ∈ f.loops, l.StrictlyWithin m → m ≠ o → o.size < m.size ∧ o.StrictlyWithin m
  /-- There is none exactly if no loop strictly contains the loop. -/
  outermost : ∀ l ∈ f.loops, f.enclosing? l = none ↔ ∀ m ∈ f.loops, ¬ l.StrictlyWithin m
  /-- The innermost loop around a vertex contains it and lies within all others that do. -/
  innermost : ∀ v o, f.innermost? v = some o ↔ o ∈ f.loops ∧ v ∈ o.blocks ∧
    ∀ m ∈ f.loops, v ∈ m.blocks → m ≠ o → o.StrictlyWithin m
  /-- There is none exactly if no loop contains the vertex. -/
  outside : ∀ v, f.innermost? v = none ↔ ∀ m ∈ f.loops, v ∉ m.blocks
  /-- A loop has inner loops exactly if it strictly contains some. -/
  inner : ∀ l ∈ f.loops, f.hasInner l = true ↔ ∃ m ∈ f.loops, m.StrictlyWithin l
  /-- The depth is the number of loops around the header, and following the enclosing loops ends
  after as many steps as there are loops. -/
  depth : ∀ l ∈ f.loops, f.depth l = some (f.around l.header).length ∧
    ∀ fuel, f.count ≤ fuel → f.depthFrom fuel l = f.depth l

theorem Laminar.nested (hf : f.Laminar) : f.Nested where
  laminar := fun _ hl _ hm hne => hf.disjoint_or_strictlyWithin hl hm hne
  enclosing := by
    intro l hl o
    rw [hf.enclosing?_eq_some_iff hl]
    refine and_congr_right fun ho => and_congr_right fun _ => forall₂_congr fun m hm => ?_
    refine imp_congr_right fun _ => imp_congr_right fun _ => ?_
    exact ⟨fun h => ⟨hf.size_lt ho h, h⟩, fun h => h.2⟩
  outermost := fun _ hl => hf.enclosing?_eq_none_iff hl
  innermost := fun _ _ => hf.innermost?_eq_some_iff
  outside := fun _ => hf.innermost?_eq_none_iff
  inner := fun _ hl => hf.hasInner_iff hl
  depth := fun _ hl => ⟨hf.depth_eq hl, fun _ hfuel =>
    (hf.depthFrom_eq_of_count_le hl hfuel).trans (hf.depth_eq hl).symm⟩

end LoopForest

end Unroller
