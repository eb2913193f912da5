import Mathlib.Tactic
import Unroller.Proofs.Digraph.SearchTree

/-!
# Semidominators

The theory behind the dominator computation, for an arbitrary depth-first search tree.  The
*semidominator* of `w` is the earliest vertex from which `w` can be reached over vertices later than
`w` (`IsSemi`).

* `exists_isSemi`, `semi_ancestor`: every vertex but the root has one, a proper ancestor.
* `isSemi_of_candidates`: it can be found among the predecessors and the semidominators of the
  ancestors of predecessors.
* `isImmediate_of_semi`: when no vertex on the tree path below the semidominator has an earlier
  semidominator, the semidominator is the immediate dominator.
* `isImmediate_of_least`: otherwise a vertex of least semidominator on that path has the same
  immediate dominator.

The last two rest on `exists_crossing`: a walk that comes to `w` from before an ancestor `d` of `w`
and avoids `d` enters the tree path between the two from before `d`, over late vertices only.
-/

namespace Unroller.Digraph

/-! ## Walks over given vertices -/

/-- A walk of at least one edge whose inner vertices satisfy `P`. -/
inductive Through (g : Digraph) (P : Nat → Prop) : Nat → Nat → Prop where
  | edge {a b : Nat} (h : g.Edge a b) : Through g P a b
  | cons {a b c : Nat} (h : g.Edge a b) (hb : P b) (rest : Through g P b c) : Through g P a c

namespace Through

variable {g : Digraph} {P Q : Nat → Prop} {a b c d : Nat}

theorem mono (hPQ : ∀ m, P m → Q m) (h : g.Through P a b) : g.Through Q a b := by
  induction h with
  | edge h => exact .edge h
  | cons h hb _ ih => exact .cons h (hPQ _ hb) ih

theorem trans (h : g.Through P a b) (hb : P b) (h' : g.Through P b c) : g.Through P a c := by
  induction h with
  | edge h => exact .cons h hb h'
  | cons h hm _ ih => exact .cons h hm (ih hb h')

/-- Such a walk avoids what is neither an inner vertex nor an end. -/
theorem avoids (h : g.Through P a b) (ha : a ≠ d) (hb : b ≠ d) (hP : ¬ P d) :
    g.Avoids d a b := by
  induction h with
  | edge h => exact h.avoids ha hb
  | @cons a m b h hm _ ih =>
    have hmd : m ≠ d := by
      rintro rfl
      exact hP hm
    exact (h.avoids ha hmd).trans (ih hmd hb)

/-- The last step of such a walk. -/
theorem cases_last (h : g.Through P a b) :
    g.Edge a b ∨ ∃ c, g.Through P a c ∧ P c ∧ g.Edge c b := by
  induction h with
  | edge h => exact .inl h
  | @cons a m b h hm _ ih =>
    rcases ih with hmb | ⟨c, hmc, hc, hcb⟩
    · exact .inr ⟨m, .edge h, hm, hmb⟩
    · exact .inr ⟨c, .cons h hm hmc, hc, hcb⟩

end Through

namespace IsSearchTree

variable {g : Digraph} {root : Nat} {tree : List (Nat × Option Nat)}
variable {a b c d p q u v w x y z s : Nat}

/-! ## Ancestors in a search tree -/

theorem child_mem (h : TreeParent tree p v) : v ∈ tree.map (·.1) :=
  List.mem_map.2 ⟨_, h, rfl⟩

theorem edge_mem (ht : IsSearchTree g root tree) (hv : v ∈ tree.map (·.1)) (h : g.Edge v w) :
    w ∈ tree.map (·.1) := by
  rw [ht.mem_iff] at hv ⊢
  exact hv.step h

theorem parent_mem (ht : IsSearchTree g root tree) (h : TreeParent tree p v) :
    p ∈ tree.map (·.1) :=
  mem_of_position_lt (lt_trans (ht.parent_lt p v h) (position_lt_length (child_mem h)))

theorem ancestor_mem (ht : IsSearchTree g root tree) (h : Ancestor tree a c)
    (hc : c ∈ tree.map (·.1)) : a ∈ tree.map (·.1) :=
  Ancestor.left_mem (fun _ _ h => ht.parent_mem h) h hc

theorem ancestor_le (ht : IsSearchTree g root tree) (h : Ancestor tree a c) :
    position tree a ≤ position tree c := by
  induction h with
  | refl => exact le_rfl
  | tail _ hmc ih => exact ih.trans (ht.parent_lt _ _ hmc).le

theorem ancestor_lt (ht : IsSearchTree g root tree) (h : Ancestor tree a c) (hne : a ≠ c) :
    position tree a < position tree c := by
  rcases Relation.ReflTransGen.cases_tail h with rfl | ⟨m, ham, hmc⟩
  · exact absurd rfl hne
  · exact lt_of_le_of_lt (ht.ancestor_le ham) (ht.parent_lt _ _ hmc)

theorem parent_unique (ht : IsSearchTree g root tree) (h : TreeParent tree p v)
    (h' : TreeParent tree q v) : p = q := by
  have := List.inj_on_of_nodup_map ht.nodup h h' rfl
  simpa using this

/-- Of two ancestors of one vertex the earlier is an ancestor of the later. -/
theorem comparable (ht : IsSearchTree g root tree) (ha : Ancestor tree a c)
    (hb : Ancestor tree b c) (hc : c ∈ tree.map (·.1)) (hab : position tree a ≤ position tree b) :
    Ancestor tree a b :=
  ht.between a b c ha hc hab (ht.ancestor_le hb)

/-- The child of `a` through which a descendant is reached. -/
theorem child_toward (h : Ancestor tree a v) (hne : a ≠ v) :
    ∃ c, TreeParent tree a c ∧ Ancestor tree c v := by
  rcases Relation.ReflTransGen.cases_head h with rfl | ⟨c, hac, hcv⟩
  · exact absurd rfl hne
  · exact ⟨c, hac, hcv⟩

theorem eq_root_or_parent (ht : IsSearchTree g root tree) (hv : v ∈ tree.map (·.1)) :
    v = root ∨ ∃ p, TreeParent tree p v := by
  obtain ⟨⟨v, q⟩, hmem, rfl⟩ := List.mem_map.1 hv
  cases q with
  | none => exact .inl ((ht.root_iff v).1 hmem).2
  | some p => exact .inr ⟨p, hmem⟩

theorem root_ancestor (ht : IsSearchTree g root tree) (hv : v ∈ tree.map (·.1)) :
    Ancestor tree root v := by
  induction hn : position tree v using Nat.strong_induction_on generalizing v with
  | _ n ih =>
    rcases ht.eq_root_or_parent hv with rfl | ⟨p, hpv⟩
    · exact .refl
    · exact (ih _ (hn ▸ ht.parent_lt p v hpv) (ht.parent_mem hpv) rfl).tail hpv

/-- The root stands first. -/
theorem position_root (ht : IsSearchTree g root tree) (hv : v ∈ tree.map (·.1)) :
    position tree root = 0 := by
  obtain ⟨e, rest, rfl⟩ := List.exists_cons_of_ne_nil (l := tree) (by rintro rfl; simp at hv)
  have hle := ht.ancestor_le (ht.root_ancestor (v := e.1) (by simp))
  have hzero : position (e :: rest) e.1 = 0 := by simp [position]
  omega

theorem root_not_child (ht : IsSearchTree g root tree) : ¬ TreeParent tree p root := by
  intro h
  have hroot : (root, none) ∈ tree := (ht.root_iff root).2 ⟨child_mem h, rfl⟩
  have := List.inj_on_of_nodup_map ht.nodup h hroot rfl
  simp at this

theorem ne_root_of_lt (ht : IsSearchTree g root tree) (hv : v ∈ tree.map (·.1))
    (h : position tree v < position tree w) : w ≠ root := by
  rintro rfl
  exact absurd (ht.ancestor_le (ht.root_ancestor hv)) (not_le.2 h)

/-- The tree path from `a` to `b` avoids what does not lie on it. -/
theorem avoids_of_ancestor (ht : IsSearchTree g root tree) (h : Ancestor tree a b)
    (hb : b ∈ tree.map (·.1)) (hd : Ancestor tree a d → Ancestor tree d b → False) :
    g.Avoids d a b := by
  induction h with
  | refl =>
    have hlt : a < g.size := ((ht.mem_iff a).1 hb).right_lt
    refine .refl hlt ?_
    rintro rfl
    exact hd .refl .refl
  | @tail m b ham hmb ih =>
    have hm := ht.parent_mem hmb
    refine (ih hm fun hax hxm => hd hax (hxm.tail hmb)).trans
      ((ht.parent_edge m b hmb).avoids ?_ ?_)
    · rintro rfl
      exact hd ham (.single hmb)
    · rintro rfl
      exact hd (ham.tail hmb) .refl

/-! ## Late walks stay below their earliest vertex -/

theorem ancestor_edge (ht : IsSearchTree g root tree) (h : Ancestor tree y z)
    (hz : z ∈ tree.map (·.1)) (hzw : g.Edge z w) (hle : position tree y ≤ position tree w) :
    Ancestor tree y w := by
  by_cases hlt : position tree z < position tree w
  · exact h.trans (ht.forward z w hz hzw hlt)
  · exact ht.between y w z h hz hle (not_lt.1 hlt)

theorem through_mem {P : Nat → Prop} (ht : IsSearchTree g root tree) (h : g.Through P a b)
    (ha : a ∈ tree.map (·.1)) : b ∈ tree.map (·.1) := by
  induction h with
  | edge h => exact ht.edge_mem ha h
  | cons h _ _ ih => exact ih (ht.edge_mem ha h)

/-- A walk over vertices that are not before `y` stays below `y`. -/
theorem ancestor_of_through (ht : IsSearchTree g root tree)
    (hwalk : g.Through (fun m => position tree y ≤ position tree m) z u)
    (h : Ancestor tree y z) (hz : z ∈ tree.map (·.1)) (hle : position tree y ≤ position tree u) :
    Ancestor tree y u := by
  induction hwalk with
  | edge hedge => exact ht.ancestor_edge h hz hedge hle
  | cons hedge hm _ ih => exact ih (ht.ancestor_edge h hz hedge hm) (ht.edge_mem hz hedge) hle

end IsSearchTree

/-! ## Semidominators -/

/-- The vertices after `w`. -/
def After (tree : List (Nat × Option Nat)) (w m : Nat) : Prop := position tree w < position tree m

/-- `s` is the earliest vertex from which `w` can be reached over vertices after `w`. -/
def IsSemi (g : Digraph) (tree : List (Nat × Option Nat)) (w s : Nat) : Prop :=
  s ∈ tree.map (·.1) ∧ g.Through (After tree w) s w ∧
    ∀ x ∈ tree.map (·.1), g.Through (After tree w) x w → position tree s ≤ position tree x

namespace IsSearchTree

variable {g : Digraph} {root : Nat} {tree : List (Nat × Option Nat)}
variable {a b c d p q u v w x y z s t : Nat}

theorem isSemi_unique (h : IsSemi g tree w s) (h' : IsSemi g tree w t) : s = t :=
  position_inj h.1 (le_antisymm (h.2.2 t h'.1 h'.2.1) (h'.2.2 s h.1 h.2.1))

theorem exists_isSemi (ht : IsSearchTree g root tree) (hw : w ∈ tree.map (·.1))
    (hroot : w ≠ root) : ∃ s, IsSemi g tree w s := by
  classical
  obtain ⟨p, hpw⟩ := (ht.eq_root_or_parent hw).resolve_left hroot
  have hex : ∃ n x, x ∈ tree.map (·.1) ∧ g.Through (After tree w) x w ∧ position tree x = n :=
    ⟨_, p, ht.parent_mem hpw, .edge (ht.parent_edge p w hpw), rfl⟩
  obtain ⟨s, hs, hsw, hpos⟩ := Nat.find_spec hex
  refine ⟨s, hs, hsw, fun x hx hxw => ?_⟩
  rw [hpos]
  exact Nat.find_min' hex ⟨x, hx, hxw, rfl⟩

theorem semi_lt (ht : IsSearchTree g root tree) (h : IsSemi g tree w s) (hw : w ∈ tree.map (·.1))
    (hroot : w ≠ root) : position tree s < position tree w := by
  obtain ⟨p, hpw⟩ := (ht.eq_root_or_parent hw).resolve_left hroot
  exact lt_of_le_of_lt (h.2.2 p (ht.parent_mem hpw) (.edge (ht.parent_edge p w hpw)))
    (ht.parent_lt p w hpw)

theorem semi_ancestor (ht : IsSearchTree g root tree) (h : IsSemi g tree w s)
    (hw : w ∈ tree.map (·.1)) (hroot : w ≠ root) : Ancestor tree s w := by
  have hlt := ht.semi_lt h hw hroot
  refine ht.ancestor_of_through (h.2.1.mono fun m hm => ?_) .refl h.1 hlt.le
  exact (lt_trans hlt hm).le

theorem semi_ne (ht : IsSearchTree g root tree) (h : IsSemi g tree w s) (hw : w ∈ tree.map (·.1))
    (hroot : w ≠ root) : s ≠ w := by
  rintro rfl
  exact lt_irrefl _ (ht.semi_lt h hw hroot)

/-! ## Finding semidominators -/

/-- `x` precedes `w`, or is the semidominator of a vertex after `w` that lies above a predecessor
of `w`. -/
def Candidate (g : Digraph) (tree : List (Nat × Option Nat)) (w x : Nat) : Prop :=
  (x ∈ tree.map (·.1) ∧ g.Edge x w) ∨
    ∃ v u, v ∈ tree.map (·.1) ∧ g.Edge v w ∧ Ancestor tree u v ∧ After tree w u ∧
      IsSemi g tree u x

theorem Candidate.mem (h : Candidate g tree w x) : x ∈ tree.map (·.1) := by
  rcases h with h | ⟨v, u, _, _, _, _, hux⟩
  · exact h.1
  · exact hux.1

theorem through_of_ancestor (ht : IsSearchTree g root tree) (h : Ancestor tree u v)
    (hu : After tree w u) (hvw : g.Edge v w) : g.Through (After tree w) u w := by
  induction h using Relation.ReflTransGen.head_induction_on with
  | refl => exact .edge hvw
  | @head u m hum _ ih =>
    have hm : After tree w m := lt_trans hu (ht.parent_lt u m hum)
    exact .cons (ht.parent_edge u m hum) hm (ih hm)

theorem Candidate.through (ht : IsSearchTree g root tree) (h : Candidate g tree w x) :
    g.Through (After tree w) x w := by
  rcases h with ⟨_, h⟩ | ⟨v, u, hv, hvw, huv, hwu, hux⟩
  · exact .edge h
  · refine Through.trans (hux.2.1.mono fun m hm => ?_) hwu (ht.through_of_ancestor huv hwu hvw)
    exact lt_trans hwu hm

/-- The first vertex of a walk that lies above its end is reached over later vertices. -/
theorem exists_first_ancestor {P : Nat → Prop} (ht : IsSearchTree g root tree)
    (h : g.Through P x v) (hx : x ∈ tree.map (·.1)) :
    ∃ u, (P u ∨ u = v) ∧ Ancestor tree u v ∧ g.Through (After tree u) x u := by
  induction h with
  | @edge x v hedge => exact ⟨v, .inr rfl, .refl, .edge hedge⟩
  | @cons x y v hedge hPy _ ih =>
    have hy := ht.edge_mem hx hedge
    by_cases hyv : Ancestor tree y v
    · exact ⟨y, .inl hPy, hyv, .edge hedge⟩
    · obtain ⟨u, hPu, huv, hyu⟩ := ih hy
      refine ⟨u, hPu, huv, .cons hedge ?_ hyu⟩
      -- were `y` not after `u`, the walk from `y` to `u` would stay below `y`
      by_contra hle
      have hle : position tree y ≤ position tree u := not_lt.1 hle
      refine hyv ((ht.ancestor_of_through (hyu.mono fun m hm => ?_) .refl hy hle).trans huv)
      exact (lt_of_le_of_lt hle hm).le

theorem candidate_of_isSemi (ht : IsSearchTree g root tree) (h : IsSemi g tree w s)
    (hw : w ∈ tree.map (·.1)) : Candidate g tree w s := by
  rcases h.2.1.cases_last with hedge | ⟨v, hsv, hv, hvw⟩
  · exact .inl ⟨h.1, hedge⟩
  · obtain ⟨u, hu, huv, hsu⟩ := ht.exists_first_ancestor hsv h.1
    have hwu : After tree w u := by
      rcases hu with hu | rfl
      · exact hu
      · exact hv
    have hvmem := ht.through_mem hsv h.1
    have humem := ht.ancestor_mem huv hvmem
    obtain ⟨t, hut⟩ := ht.exists_isSemi humem (ht.ne_root_of_lt hw hwu)
    -- the semidominator of `u` is a candidate that is not after `s`
    have hcand : Candidate g tree w t := .inr ⟨v, u, hvmem, hvw, huv, hwu, hut⟩
    have hle := h.2.2 t hcand.mem (Candidate.through ht hcand)
    have hge := hut.2.2 s h.1 hsu
    rwa [position_inj h.1 (le_antisymm hle hge)]

/-- An earliest candidate is the semidominator. -/
theorem isSemi_of_candidates (ht : IsSearchTree g root tree) (hw : w ∈ tree.map (·.1))
    (hroot : w ≠ root) (h : Candidate g tree w s)
    (hleast : ∀ x, Candidate g tree w x → position tree s ≤ position tree x) :
    IsSemi g tree w s := by
  obtain ⟨t, ht'⟩ := ht.exists_isSemi hw hroot
  have hle := hleast t (ht.candidate_of_isSemi ht' hw)
  have hge := ht'.2.2 s h.mem (Candidate.through ht h)
  rwa [position_inj h.mem (le_antisymm hle hge)]

/-! ## Dominators and the tree -/

/-- Dominators are ancestors. -/
theorem ancestor_of_dominates (ht : IsSearchTree g root tree) (h : g.Dominates root a w) :
    Ancestor tree a w := by
  by_contra hno
  have hw : w ∈ tree.map (·.1) := (ht.mem_iff w).2 h.reaches
  exact (dominates_iff.1 h).2
    (ht.avoids_of_ancestor (ht.root_ancestor hw) hw fun _ haw => hno haw)

/-- Strict dominators of a vertex dominate its semidominator. -/
theorem dominates_semi (ht : IsSearchTree g root tree) (hs : IsSemi g tree w s)
    (h : g.Dominates root a w) (hne : a ≠ w) : g.Dominates root a s := by
  have hlt := ht.ancestor_lt (ht.ancestor_of_dominates h) hne
  rw [dominates_iff]
  refine ⟨(ht.mem_iff s).1 hs.1, fun hav => ?_⟩
  have hlate : ¬ After tree w a := not_lt.2 hlt.le
  exact (dominates_iff.1 h).2 (hav.trans (hs.2.1.avoids hav.ne_right hne.symm hlate))

/-- **Crossing.**  A walk to `w` that starts before the ancestor `d` of `w` and avoids `d` enters
the tree path from `d` to `w`, below `d`, from a vertex before `d` and over later vertices. -/
theorem exists_crossing (ht : IsSearchTree g root tree) (hdw : Ancestor tree d w)
    (hw : w ∈ tree.map (·.1)) (h : g.Avoids d a w) (ha : a ∈ tree.map (·.1))
    (had : position tree a < position tree d) :
    ∃ x y, x ∈ tree.map (·.1) ∧ position tree x < position tree d ∧ Ancestor tree d y ∧ y ≠ d ∧
      Ancestor tree y w ∧ g.Through (After tree y) x y := by
  by_contra hnone
  push Not at hnone
  -- from a vertex that is not before `d` the walk comes to the tree path over later vertices
  have key : ∀ {b vs}, g.Walk b w vs → d ∉ vs → b ∈ tree.map (·.1) →
      position tree d ≤ position tree b ∧
        ∃ y, Ancestor tree d y ∧ y ≠ d ∧ Ancestor tree y w ∧
          (b = y ∨ After tree y b ∧ g.Through (After tree y) b y) := by
    intro b vs hwalk
    clear h
    induction hwalk with
    | @single w _ =>
      intro hd _
      have hne : w ≠ d := by simpa [eq_comm] using hd
      exact ⟨ht.ancestor_le hdw, w, hdw, hne, .refl, .inl rfl⟩
    | @cons b m w vs hedge _ ih =>
      intro hd hb
      have hd' : d ∉ vs := fun hmem => hd (List.mem_cons_of_mem _ hmem)
      have hbd : b ≠ d := by
        rintro rfl
        exact hd (List.mem_cons_self ..)
      obtain ⟨_, y, hdy, hyd, hyw, hmy⟩ := ih hdw hw hnone hd' (ht.edge_mem hb hedge)
      have hby : g.Through (After tree y) b y := by
        rcases hmy with rfl | ⟨hym, hmy⟩
        · exact .edge hedge
        · exact .cons hedge hym hmy
      have hle : position tree d ≤ position tree b := by
        by_contra hlt
        exact hnone b y hb (not_le.1 hlt) hdy hyd hyw hby
      refine ⟨hle, ?_⟩
      by_cases hyb : position tree y < position tree b
      · exact ⟨y, hdy, hyd, hyw, .inr ⟨hyb, hby⟩⟩
      · -- `b` is above `y`, so it lies on the tree path itself
        have hby' : Ancestor tree b y := by
          refine ht.ancestor_of_through (hby.mono fun m hm => ?_) .refl hb (not_lt.1 hyb)
          exact (lt_of_le_of_lt (not_lt.1 hyb) hm).le
        have hdb : Ancestor tree d b := ht.comparable hdy hby' (ht.ancestor_mem hyw hw) hle
        exact ⟨b, hdb, hbd, hby'.trans hyw, .inl rfl⟩
  obtain ⟨vs, hwalk, hd⟩ := h
  exact absurd (key hwalk hd ha).1 (not_le.2 had)

/-- **When the semidominator is the immediate dominator.**  No vertex on the tree path below it has
an earlier semidominator. -/
theorem isImmediate_of_semi (ht : IsSearchTree g root tree) (hw : w ∈ tree.map (·.1))
    (hroot : w ≠ root) (hs : IsSemi g tree w s)
    (hleast : ∀ u t, Ancestor tree s u → u ≠ s → Ancestor tree u w → IsSemi g tree u t →
      position tree s ≤ position tree t) : g.IsImmediate root s w := by
  have hsw := ht.semi_ancestor hs hw hroot
  refine ⟨ht.semi_ne hs hw hroot, dominates_iff.2 ⟨(ht.mem_iff w).1 hw, fun hav => ?_⟩,
    fun a ha hdom => ht.dominates_semi hs hdom ha⟩
  have hmem : root ∈ tree.map (·.1) := ht.ancestor_mem (ht.root_ancestor hw) hw
  have hlt := ht.ancestor_lt (ht.root_ancestor hs.1) hav.ne_left
  obtain ⟨x, y, hx, hxs, hsy, hys, hyw, hxy⟩ := ht.exists_crossing hsw hw hav hmem hlt
  have hy := ht.ancestor_mem hyw hw
  obtain ⟨t, hyt⟩ := ht.exists_isSemi hy (ht.ne_root_of_lt hmem
    (lt_of_lt_of_le hlt (ht.ancestor_le hsy)))
  have hle := hleast y t hsy hys hyw hyt
  have := hyt.2.2 x hx hxy
  omega

/-- **When it is not.**  A vertex of least semidominator on the tree path below the semidominator
has the same immediate dominator. -/
theorem isImmediate_of_least (ht : IsSearchTree g root tree) (hw : w ∈ tree.map (·.1))
    (hs : IsSemi g tree w s) (hsu : Ancestor tree s u) (hus : u ≠ s) (huw : Ancestor tree u w)
    (ht' : IsSemi g tree u t)
    (hleast : ∀ v q, Ancestor tree s v → v ≠ s → Ancestor tree v w → IsSemi g tree v q →
      position tree t ≤ position tree q)
    (hd : g.IsImmediate root d u) : g.IsImmediate root d w := by
  have hu := ht.ancestor_mem huw hw
  have hsu_lt := ht.ancestor_lt hsu hus.symm
  have hdu : Ancestor tree d u := ht.ancestor_of_dominates hd.2.1
  have hdu_lt := ht.ancestor_lt hdu hd.1
  have huw_le := ht.ancestor_le huw
  have hdw : Ancestor tree d w := hdu.trans huw
  have hdt : position tree d ≤ position tree t :=
    ht.ancestor_le (ht.ancestor_of_dominates (ht.dominates_semi ht' hd.2.1 hd.1))
  refine ⟨?ne, dominates_iff.2 ⟨(ht.mem_iff w).1 hw, fun hav => ?_⟩, fun a ha hdom => ?_⟩
  case ne =>
    rintro rfl
    omega
  · -- a walk that avoids `d` crosses to a vertex `y` with an earlier semidominator
    have hmem : root ∈ tree.map (·.1) := ht.ancestor_mem (ht.root_ancestor hw) hw
    have hdmem := ht.ancestor_mem hdw hw
    have hlt := ht.ancestor_lt (ht.root_ancestor hdmem) hav.ne_left
    obtain ⟨x, y, hx, hxd, hdy, hyd, hyw, hxy⟩ := ht.exists_crossing hdw hw hav hmem hlt
    have hy := ht.ancestor_mem hyw hw
    have hdy_lt := ht.ancestor_lt hdy hyd.symm
    obtain ⟨q, hyq⟩ := ht.exists_isSemi hy (ht.ne_root_of_lt hmem (lt_trans hlt hdy_lt))
    have hqd : position tree q < position tree d := lt_of_le_of_lt (hyq.2.2 x hx hxy) hxd
    -- so `y` is not below `s`, hence above `u`
    have hys : Ancestor tree y s := by
      have hsw := hsu.trans huw
      by_cases hle : position tree y ≤ position tree s
      · exact ht.comparable hyw hsw hw hle
      · have hsy := ht.comparable hsw hyw hw (not_le.1 hle).le
        have hys : y ≠ s := by
          rintro rfl
          exact hle le_rfl
        have := hleast y q hsy hys hyw hyq
        omega
    have hyu : Ancestor tree y u := hys.trans hsu
    -- and `u` can be reached over the semidominator of `y` without passing through `d`
    have h1 : g.Avoids d root q := ht.avoids_of_ancestor (ht.root_ancestor hyq.1) hyq.1
      fun _ hdq => absurd (ht.ancestor_le hdq) (not_le.2 hqd)
    have h2 : g.Avoids d q y := hyq.2.1.avoids h1.ne_right hyd (not_lt.2 hdy_lt.le)
    have h3 : g.Avoids d y u := ht.avoids_of_ancestor hyu hu
      fun hyd _ => absurd (ht.ancestor_le hyd) (not_le.2 hdy_lt)
    exact (dominates_iff.1 hd.2.1).2 (h1.trans (h2.trans h3))
  · -- a strict dominator of `w` dominates `u`: below `u` it is not met again
    have has : position tree a ≤ position tree s :=
      ht.ancestor_le (ht.ancestor_of_dominates (ht.dominates_semi hs hdom ha))
    have hau : g.Dominates root a u := by
      refine dominates_iff.2 ⟨(ht.mem_iff u).1 hu, fun hav => ?_⟩
      refine (dominates_iff.1 hdom).2 (hav.trans (ht.avoids_of_ancestor huw hw fun hua _ => ?_))
      have := ht.ancestor_le hua
      omega
    refine hd.2.2 a ?_ hau
    rintro rfl
    omega

end IsSearchTree

end Unroller.Digraph
