import Mathlib.Tactic
import Unroller.Proofs.Digraph.LinkedForest

/-!
# The pass from the last vertex to the first

`Progress g root tree n s` describes the state of the dominator computation when the vertices from
position `n` on have been dealt with: their semidominators are right, and each either waits in the
bucket of its semidominator, the tree path between the two not being linked yet, or is *settled*:
its entry is its semidominator, and that is its immediate dominator, or a vertex above it with the
same immediate dominator (`Settled`).

* `semidominator_spec`: the predecessors of a vertex give its semidominator, whether they are linked
  or not (`Scanned.lower`).
* `Progress.step`: what one vertex adds.  It is filed under its semidominator and linked
  (`Progress.file`), and whatever waits for its parent is settled (`Progress.Filed.release`).
* `Progress.settled_of_one`: at the end every vertex but the root is settled.
-/

namespace Unroller.Digraph

/-! ## Predecessors and numbers -/

theorem mem_edgesFrom {g : Digraph} {vs : List Nat} {v w : Nat} :
    (v, w) ∈ g.edgesFrom vs ↔ v ∈ vs ∧ w ∈ g.succs v ∧ w < g.size := by
  simp only [edgesFrom, List.mem_flatMap, List.mem_map, List.mem_filter, decide_eq_true_eq]
  constructor
  · rintro ⟨u, hu, x, hx, heq⟩
    obtain ⟨rfl, rfl⟩ := Prod.mk.inj heq
    exact ⟨hu, hx⟩
  · rintro ⟨hv, hw⟩
    exact ⟨v, hv, w, hw, rfl⟩

theorem mem_foldl_predecessors (edges : List (Nat × Nat)) (preds : Array (List Nat)) {v w : Nat}
    (hw : w < preds.size) :
    v ∈ (edges.foldl (fun preds e => preds.modify e.2 (e.1 :: ·)) preds).getD w [] ↔
      (v, w) ∈ edges ∨ v ∈ preds.getD w [] := by
  induction edges generalizing preds with
  | nil => simp
  | cons e edges ih =>
    rw [List.foldl_cons, ih _ (by simpa using hw), getD_modify]
    by_cases he : e.2 = w
    · simp only [he, hw, and_self, if_true, List.mem_cons, Prod.ext_iff]
      tauto
    · simp only [he, false_and, if_false, List.mem_cons, Prod.ext_iff]
      have : ¬ w = e.2 := fun h => he h.symm
      tauto

/-- The predecessors among the listed vertices. -/
theorem mem_predecessors {g : Digraph} {vs : List Nat} {v w : Nat} (hw : w < g.size) :
    v ∈ (g.predecessors vs).getD w [] ↔ v ∈ vs ∧ w ∈ g.succs v := by
  rw [predecessors, mem_foldl_predecessors _ _ (by simpa using hw), mem_edgesFrom]
  simp [Array.getD_eq_getD_getElem?, hw]

theorem getD_foldl_numbering_of_notMem {entries : List ((Nat × Option Nat) × Nat)}
    {number : Array Nat} {v : Nat} (hv : ∀ e ∈ entries, e.1.1 ≠ v) :
    (entries.foldl (fun number e => number.setIfInBounds e.1.1 (e.2 + 1)) number).getD v 0 =
      number.getD v 0 := by
  induction entries generalizing number with
  | nil => rfl
  | cons e entries ih =>
    rw [List.foldl_cons, ih fun e' he' => hv e' (List.mem_cons_of_mem _ he'), getD_setIfInBounds,
      if_neg fun h => hv e (List.mem_cons_self ..) h.1]

theorem getD_foldl_numbering {pre suf : List (Nat × Option Nat)} {number : Array Nat} {v : Nat}
    (hnodup : ((pre ++ suf).map (·.1)).Nodup) (hv : v ∈ suf.map (·.1)) (hlt : v < number.size) :
    ((suf.zipIdx pre.length).foldl
      (fun number e => number.setIfInBounds e.1.1 (e.2 + 1)) number).getD v 0 =
        position (pre ++ suf) v + 1 := by
  induction suf generalizing pre number with
  | nil => simp at hv
  | cons e suf ih =>
    rw [List.zipIdx_cons, List.foldl_cons]
    have hnodup' := hnodup
    rw [List.map_append, List.map_cons, List.nodup_append, List.nodup_cons] at hnodup'
    obtain ⟨-, ⟨hsuf, -⟩, hpre⟩ := hnodup'
    by_cases he : e.1 = v
    · -- later entries are of other vertices
      rw [getD_foldl_numbering_of_notMem, getD_setIfInBounds, if_pos ⟨he, by simpa using hlt⟩]
      · have hnot : v ∉ pre.map (·.1) := fun hmem => hpre v hmem v (by simp [he]) rfl
        simp [position, List.idxOf_append_of_notMem hnot, he]
      · rintro ⟨e', k⟩ he' rfl
        exact hsuf (he ▸ List.mem_map.2 ⟨e', List.fst_mem_of_mem_zipIdx he', rfl⟩)
    · have hassoc : pre ++ e :: suf = (pre ++ [e]) ++ suf := by simp
      have hv : v ∈ suf.map (·.1) := by
        rw [List.map_cons] at hv
        exact (List.mem_cons.1 hv).resolve_left (Ne.symm he)
      rw [hassoc] at hnodup ⊢
      have hlt' : v < (number.setIfInBounds e.1 (pre.length + 1)).size := by simpa using hlt
      simpa using ih hnodup hv hlt'

theorem numbering_eq {g : Digraph} {root : Nat} {tree : List (Nat × Option Nat)}
    (ht : IsSearchTree g root tree) {v : Nat} (hv : v ∈ tree.map (·.1)) :
    (g.numbering tree).getD v 0 = position tree v + 1 := by
  have hlt : v < g.size := ((ht.mem_iff v).1 hv).right_lt
  have hnodup : (([] ++ tree).map Prod.fst).Nodup := by simpa using ht.nodup
  have hsize : v < (Array.replicate g.size 0).size := by simpa using hlt
  simpa [numbering] using getD_foldl_numbering hnodup hv hsize

/-! ## The semidominator of one vertex -/

section Scan

variable {g : Digraph} {root : Nat} {tree : List (Nat × Option Nat)} {f f₀ : Forest}
variable {p u v w x : Nat}

theorem lt_position (hv : v ∈ tree.map (·.1)) (hne : v ≠ w)
    (hle : position tree w ≤ position tree v) : position tree w < position tree v :=
  lt_of_le_of_ne hle fun heq => hne (position_inj hv heq.symm)

/-- The semidominators of the vertices from position `n` on are right, those of the others have not
been looked at. -/
structure SemiKnown (g : Digraph) (tree : List (Nat × Option Nat)) (n : Nat) (f : Forest) :
    Prop where
  linked : f.Linked g tree n
  found : ∀ v ∈ tree.map (·.1), n ≤ position tree v → IsSemi g tree v (f.semiOf v)
  ahead : ∀ v ∈ tree.map (·.1), position tree v < n → f.semiOf v = v

theorem SemiKnown.key_found {n : Nat} (h : SemiKnown g tree n f) (hv : v ∈ tree.map (·.1))
    (hn : n ≤ position tree v) : f.key v = position tree (f.semiOf v) + 1 :=
  h.linked.number_eq _ (h.found v hv hn).1

/-- The predecessors in `seen` have been taken into account for `w`; `f₀` is the forest before. -/
structure Scanned (g : Digraph) (tree : List (Nat × Option Nat)) (w : Nat) (f₀ : Forest)
    (seen : List Nat) (f : Forest) : Prop where
  linked : f.Linked g tree (position tree w + 1)
  others : ∀ v, v ≠ w → f.semiOf v = f₀.semiOf v
  here : f.semiOf w = w ∨ IsSearchTree.Candidate g tree w (f.semiOf w)
  small : f.key w ≤ position tree w + 1
  least_ahead : ∀ v ∈ seen, position tree v ≤ position tree w → f.key w ≤ position tree v + 1
  least_found : ∀ v ∈ seen, ∀ u, Ancestor tree u v → position tree w < position tree u →
    f.key w ≤ f.key u

/-- Lowering the semidominator of `w` to that of `u` takes the predecessor `v` into account, when no
linked vertex above `v` has a smaller one than `u`, nor `v` itself where it is not linked. -/
theorem Scanned.lower {seen : List Nat} {f' : Forest} (h : Scanned g tree w f₀ seen f)
    (hw : w < g.size) (hlinked : f'.Linked g tree (position tree w + 1))
    (hsemi' : ∀ x, f'.semiOf x = f.semiOf x) (hkey' : ∀ x, f'.key x = f.key x)
    (hcand : u ≠ w → IsSearchTree.Candidate g tree w (f.semiOf u))
    (hahead : position tree v ≤ position tree w → f.key u ≤ position tree v + 1)
    (hfound : ∀ x, Ancestor tree x v → position tree w < position tree x → f.key u ≤ f.key x) :
    Scanned g tree w f₀ (v :: seen) (f'.lower w u) := by
  have hsize : w < f'.semi.size := by rw [hlinked.semi_size]; exact hw
  have hkey := fun x => Forest.key_lower (x := x) (u := u) hsize
  have hsemi := fun x => Forest.semiOf_lower (x := x) (u := u) hsize
  have hhere : (f'.lower w u).key w = min (f.key u) (f.key w) := by
    rw [hkey, if_pos rfl, hkey', hkey']
  have hother : ∀ x, position tree w < position tree x → (f'.lower w u).key x = f.key x := by
    intro x hx
    rw [hkey, if_neg, hkey']
    rintro rfl
    exact lt_irrefl _ hx
  refine
    { linked := hlinked.lower hw (Nat.lt_succ_self _)
      others := ?others
      here := ?here
      small := hhere.trans_le ((min_le_right _ _).trans h.small)
      least_ahead := ?ahead
      least_found := ?found }
  case others =>
    intro x hx
    rw [hsemi, if_neg fun hc => hx hc.1, hsemi']
    exact h.others x hx
  case here =>
    rw [hsemi, hsemi', hsemi']
    split
    · rename_i hc
      refine .inr (hcand ?_)
      rintro rfl
      exact lt_irrefl _ hc.2
    · exact h.here
  case ahead =>
    intro x hx hxw
    rw [hhere]
    rcases List.mem_cons.1 hx with rfl | hx
    · exact (min_le_left _ _).trans (hahead hxw)
    · exact (min_le_right _ _).trans (h.least_ahead x hx hxw)
  case found =>
    intro x hx y hyx hy
    rw [hhere, hother y hy]
    rcases List.mem_cons.1 hx with rfl | hx
    · exact (min_le_left _ _).trans (hfound y hyx hy)
    · exact (min_le_right _ _).trans (h.least_found x hx y hyx hy)

/-- A predecessor that is not linked is a candidate itself. -/
theorem Scanned.step_ahead {seen : List Nat} (hk : SemiKnown g tree (position tree w + 1) f₀)
    (ht : IsSearchTree g root tree) (h : Scanned g tree w f₀ seen f) (hv : v ∈ tree.map (·.1))
    (hvw : g.Edge v w) (hle : position tree v ≤ position tree w) :
    Scanned g tree w f₀ (v :: seen) (f.lower w v) := by
  have hsemi : v ≠ w → f.semiOf v = v := by
    intro hne
    rw [h.others v hne, hk.ahead v hv (Nat.lt_succ_of_le hle)]
  refine h.lower hvw.right_lt h.linked (fun _ => rfl) (fun _ => rfl) ?cand ?ahead ?found
  case cand =>
    intro hne
    rw [hsemi hne]
    exact .inl ⟨hv, hvw⟩
  case ahead =>
    intro _
    by_cases hvw : v = w
    · rw [hvw]
      exact h.small
    · rw [Forest.key, hsemi hvw, h.linked.number_eq v hv]
  case found =>
    intro x hxv hx
    have := ht.ancestor_le hxv
    omega

/-- A linked predecessor contributes the least semidominator of its linked ancestors. -/
theorem Scanned.step_found {seen : List Nat} (hk : SemiKnown g tree (position tree w + 1) f₀)
    (ht : IsSearchTree g root tree) (h : Scanned g tree w f₀ seen f)
    (hv : v ∈ tree.map (·.1)) (hvw : g.Edge v w) (hlt : position tree w < position tree v) :
    Scanned g tree w f₀ (v :: seen) ((f.eval v).2.lower w (f.eval v).1) := by
  obtain ⟨u, f', heval, hlinked, hsemi', hnumber', huv, hwu, hleast⟩ :=
    h.linked.eval_linked ht hv hlt
  rw [heval]
  refine h.lower hvw.right_lt hlinked (fun x => ?semi) (fun x => ?key) ?cand
    (fun hle => absurd hle (not_le.2 hlt)) hleast
  case semi => simp only [Forest.semiOf, hsemi']
  case key => simp only [Forest.key, Forest.semiOf, Forest.numberOf, hsemi', hnumber']
  case cand =>
    intro hne
    rw [h.others u hne]
    exact .inr ⟨v, u, hv, hvw, huv, hwu, hk.found u (ht.ancestor_mem huv hv) hwu⟩

theorem Scanned.step {seen : List Nat} (hk : SemiKnown g tree (position tree w + 1) f₀)
    (ht : IsSearchTree g root tree) (h : Scanned g tree w f₀ seen f) (hv : v ∈ tree.map (·.1))
    (hvw : g.Edge v w) :
    Scanned g tree w f₀ (v :: seen) ((f.eval v).2.lower w (f.eval v).1) := by
  by_cases hle : position tree v ≤ position tree w
  · rw [h.linked.eval_unlinked (by omega)]
    exact h.step_ahead hk ht hv hvw hle
  · exact h.step_found hk ht hv hvw (not_le.1 hle)

theorem Scanned.fold (hk : SemiKnown g tree (position tree w + 1) f₀)
    (ht : IsSearchTree g root tree) {seen preds : List Nat} (h : Scanned g tree w f₀ seen f)
    (hpreds : ∀ v ∈ preds, v ∈ tree.map (·.1) ∧ g.Edge v w) :
    Scanned g tree w f₀ (preds.reverse ++ seen) (semidominator f w preds) := by
  induction preds generalizing f seen with
  | nil => exact h
  | cons v preds ih =>
    obtain ⟨hv, hvw⟩ := hpreds v (List.mem_cons_self ..)
    have := ih (h.step hk ht hv hvw) fun x hx => hpreds x (List.mem_cons_of_mem _ hx)
    simpa [semidominator] using this

/-- **The semidominator of a vertex**, when those of all later vertices are known. -/
theorem semidominator_spec (ht : IsSearchTree g root tree)
    (hk : SemiKnown g tree (position tree w + 1) f₀) (hp : TreeParent tree p w) {preds : List Nat}
    (hpreds : ∀ v, v ∈ preds ↔ v ∈ tree.map (·.1) ∧ g.Edge v w) :
    (semidominator f₀ w preds).Linked g tree (position tree w + 1) ∧
      IsSemi g tree w ((semidominator f₀ w preds).semiOf w) ∧
      ∀ v, v ≠ w → (semidominator f₀ w preds).semiOf v = f₀.semiOf v := by
  have hw := IsSearchTree.child_mem hp
  have hroot : w ≠ root := by
    rintro rfl
    exact ht.root_not_child hp
  have hstart : Scanned g tree w f₀ [] f₀ :=
    { linked := hk.linked
      others := fun _ _ => rfl
      here := .inl (hk.ahead w hw (by omega))
      small := by
        rw [Forest.key, hk.ahead w hw (by omega), hk.linked.number_eq w hw]
      least_ahead := by simp
      least_found := by simp }
  have h := hstart.fold hk ht fun v hv => (hpreds v).1 hv
  have hseen : ∀ v, v ∈ preds.reverse ++ [] ↔ v ∈ tree.map (·.1) ∧ g.Edge v w := by
    intro v
    rw [List.append_nil, List.mem_reverse, hpreds]
  generalize semidominator f₀ w preds = f at h ⊢
  -- the parent is a predecessor, so the semidominator has been lowered
  have hparent : f.key w ≤ position tree p + 1 :=
    h.least_ahead p ((hseen p).2 ⟨ht.parent_mem hp, ht.parent_edge p w hp⟩)
      (ht.parent_lt p w hp).le
  have hlt := ht.parent_lt p w hp
  have hcand : IsSearchTree.Candidate g tree w (f.semiOf w) := by
    rcases h.here with heq | hcand
    · rw [Forest.key, heq, h.linked.number_eq w hw] at hparent
      omega
    · exact hcand
  have hkey : f.key w = position tree (f.semiOf w) + 1 := h.linked.number_eq _ hcand.mem
  refine ⟨h.linked, ht.isSemi_of_candidates hw hroot hcand ?_, h.others⟩
  rintro x (⟨hx, hxw⟩ | ⟨v, u, hv, hvw, huv, hwu, hux⟩)
  · by_cases hle : position tree x ≤ position tree w
    · have := h.least_ahead x ((hseen x).2 ⟨hx, hxw⟩) hle
      omega
    · omega
  · have hu := ht.ancestor_mem huv hv
    have hune : u ≠ w := by
      rintro rfl
      exact lt_irrefl _ hwu
    have hsemi : f.semiOf u = x := by
      rw [h.others u hune]
      exact IsSearchTree.isSemi_unique (hk.found u hu hwu) hux
    have := h.least_found v ((hseen v).2 ⟨hv, hvw⟩) u huv hwu
    rw [hkey, Forest.key, hsemi, h.linked.number_eq x hux.1] at this
    omega

/-- When the semidominator of `w` has been found, `w` can be linked. -/
theorem SemiKnown.link (ht : IsSearchTree g root tree)
    (hk : SemiKnown g tree (position tree w + 1) f₀) (hp : TreeParent tree p w)
    (hlinked : f.Linked g tree (position tree w + 1)) (hw : IsSemi g tree w (f.semiOf w))
    (hothers : ∀ v, v ≠ w → f.semiOf v = f₀.semiOf v) :
    SemiKnown g tree (position tree w) (f.link w p) where
  linked := hlinked.link ht hp
  found := by
    intro v hv hle
    by_cases hvw : v = w
    · rw [hvw]
      exact hw
    · have := hk.found v hv (lt_position hv hvw hle)
      rwa [← hothers v hvw] at this
  ahead := by
    intro v hv hlt
    have hvw : v ≠ w := by
      rintro rfl
      exact lt_irrefl _ hlt
    exact (hothers v hvw).trans (hk.ahead v hv (Nat.lt_succ_of_lt hlt))

end Scan

/-! ## Settling the vertices of a bucket -/

/-- The entry `d` of a vertex `v`: the semidominator, where that is the immediate dominator, or a
vertex above `v` that has the same immediate dominator. -/
def Settled (g : Digraph) (tree : List (Nat × Option Nat)) (v d : Nat) : Prop :=
  ∃ s, IsSemi g tree v s ∧
    ((d = s ∧ ∀ u t, Ancestor tree s u → u ≠ s → Ancestor tree u v → IsSemi g tree u t →
        position tree s ≤ position tree t) ∨
      (Ancestor tree s d ∧ d ≠ s ∧ Ancestor tree d v ∧ d ≠ v ∧ ∃ t, IsSemi g tree d t ∧
        ∀ u q, Ancestor tree s u → u ≠ s → Ancestor tree u v → IsSemi g tree u q →
          position tree t ≤ position tree q))

section Settle

variable {g : Digraph} {root : Nat} {tree : List (Nat × Option Nat)} {n p v w : Nat}
variable {s : DominatorState}

/-- When `w` has just been linked below `p`, the linked ancestors of a vertex waiting for `p` are
those on the tree path below `p`. -/
theorem linked_iff_below (ht : IsSearchTree g root tree) (hp : TreeParent tree p w)
    (hv : v ∈ tree.map (·.1)) (hwv : position tree w ≤ position tree v) (hpv : Ancestor tree p v)
    (hchild : ∀ c, TreeParent tree p c → Ancestor tree c v → position tree c ≤ position tree w)
    {u : Nat} (huv : Ancestor tree u v) :
    position tree w ≤ position tree u ↔ Ancestor tree p u ∧ u ≠ p := by
  have hlt := ht.parent_lt p w hp
  constructor
  · intro hle
    refine ⟨ht.comparable hpv huv hv (by omega), ?_⟩
    rintro rfl
    omega
  · rintro ⟨hpu, hup⟩
    obtain ⟨c, hpc, hcu⟩ := IsSearchTree.child_toward hpu hup.symm
    have hcv := hcu.trans huv
    -- `c` is `w`: it is not after `w`, and `w` lies between `c` and its descendant `v`
    have hcw : Ancestor tree c w := ht.between c w v hcv hv (hchild c hpc hcv) hwv
    have : c = w := by
      by_contra hne
      rcases Relation.ReflTransGen.cases_tail hcw with heq | ⟨q, hcq, hqw⟩
      · exact hne heq.symm
      · obtain rfl := ht.parent_unique hp hqw
        have := ht.ancestor_le hcq
        have := ht.parent_lt p c hpc
        omega
    subst this
    exact ht.ancestor_le hcu

/-- Settling one waiting vertex. -/
theorem settle_spec (ht : IsSearchTree g root tree) (hp : TreeParent tree p w)
    (hk : SemiKnown g tree (position tree w) s.forest) (hv : v ∈ tree.map (·.1))
    (hwv : position tree w ≤ position tree v) (hsemi : s.forest.semiOf v = p)
    (hchild : ∀ c, TreeParent tree p c → Ancestor tree c v → position tree c ≤ position tree w) :
    ∃ f' d, settle p s v = { s with forest := f', idom := s.idom.setIfInBounds v (some d) } ∧
      f'.semi = s.forest.semi ∧ SemiKnown g tree (position tree w) f' ∧ Settled g tree v d := by
  have hnot : ∀ x, position tree w ≤ position tree x → x ≠ root := fun x hx =>
    ht.ne_root_of_lt (ht.parent_mem hp) (lt_of_lt_of_le (ht.parent_lt p w hp) hx)
  have hvs : IsSemi g tree v p := hsemi ▸ hk.found v hv hwv
  have hpv := ht.semi_ancestor hvs hv (hnot v hwv)
  obtain ⟨u, f', heval, hlinked, hsemi', hnumber', huv, hwu, hleast⟩ :=
    hk.linked.eval_linked ht hv hwv
  have hsame : ∀ x, f'.semiOf x = s.forest.semiOf x := by
    intro x
    simp only [Forest.semiOf, hsemi']
  have hk' : SemiKnown g tree (position tree w) f' :=
    { linked := hlinked
      found := fun x hx hwx => by rw [hsame]; exact hk.found x hx hwx
      ahead := fun x hx hwx => by rw [hsame]; exact hk.ahead x hx hwx }
  have hu := ht.ancestor_mem huv hv
  have hus := hk.found u hu hwu
  have hbelow := fun x (hxv : Ancestor tree x v) =>
    linked_iff_below ht hp hv hwv hpv hchild (u := x) hxv
  -- the semidominator of `u` is the earliest on the path
  have hearliest : ∀ x t, Ancestor tree p x → x ≠ p → Ancestor tree x v → IsSemi g tree x t →
      position tree (s.forest.semiOf u) ≤ position tree t := by
    intro x t hpx hxp hxv hxt
    have hwx := (hbelow x hxv).2 ⟨hpx, hxp⟩
    have hx := ht.ancestor_mem hxv hv
    have hle := hleast x hxv hwx
    rw [hk.key_found hu hwu, hk.key_found hx hwx,
      IsSearchTree.isSemi_unique (hk.found x hx hwx) hxt] at hle
    omega
  have hd : Settled g tree v (if f'.semiOf u = f'.semiOf v then p else u) := by
    refine ⟨p, hvs, ?_⟩
    rw [hsame, hsame, hsemi]
    split
    · rename_i heq
      exact .inl ⟨rfl, heq ▸ hearliest⟩
    · rename_i hne
      obtain ⟨hpu, hup⟩ := (hbelow u huv).1 hwu
      refine .inr ⟨hpu, hup, huv, ?_, _, hus, hearliest⟩
      rintro rfl
      exact hne hsemi
  refine ⟨f', _, ?_, hsemi', hk', hd⟩
  simp only [settle, heval]

/-- Settling all vertices that wait for the parent of the vertex just linked. -/
theorem settle_fold (ht : IsSearchTree g root tree) (hp : TreeParent tree p w)
    (waiting : List Nat)
    (hk : SemiKnown g tree (position tree w) s.forest)
    (hwaiting : ∀ v ∈ waiting, v ∈ tree.map (·.1) ∧ position tree w ≤ position tree v ∧
      s.forest.semiOf v = p ∧
      ∀ c, TreeParent tree p c → Ancestor tree c v → position tree c ≤ position tree w)
    (hsize : s.idom.size = g.size) :
    ∃ s', s' = waiting.foldl (settle p) s ∧ s'.bucket = s.bucket ∧
      s'.forest.semi = s.forest.semi ∧ SemiKnown g tree (position tree w) s'.forest ∧
      s'.idom.size = g.size ∧
      (∀ v, v ∉ waiting → s'.idom.getD v none = s.idom.getD v none) ∧
      ∀ v ∈ waiting, ∃ d, s'.idom.getD v none = some d ∧ Settled g tree v d := by
  induction waiting generalizing s with
  | nil => exact ⟨s, rfl, rfl, rfl, hk, hsize, fun _ _ => rfl, by simp⟩
  | cons v waiting ih =>
    obtain ⟨hv, hwv, hsemi, hchild⟩ := hwaiting v (List.mem_cons_self ..)
    obtain ⟨f', d, hsettle, hsemi', hk', hd⟩ := settle_spec ht hp hk hv hwv hsemi hchild
    have hvlt : v < s.idom.size := by
      rw [hsize]
      exact ((ht.mem_iff v).1 hv).right_lt
    have hsame : ∀ x, f'.semiOf x = s.forest.semiOf x := by
      intro x
      simp only [Forest.semiOf, hsemi']
    obtain ⟨s', hs', hbucket, hsemi'', hk'', hsize', hkeep, hdone⟩ :=
      ih (s := settle p s v) (by rw [hsettle]; exact hk')
        (fun x hx => by
          rw [hsettle]
          simp only [hsame]
          exact hwaiting x (List.mem_cons_of_mem _ hx))
        (by rw [hsettle]; simpa using hsize)
    rw [hsettle] at hbucket hsemi'' hkeep
    refine ⟨s', hs', hbucket, hsemi''.trans hsemi', hk'', hsize', ?_, ?_⟩
    · intro x hx
      rw [List.mem_cons, not_or] at hx
      rw [hkeep x hx.2]
      simp only
      rw [getD_setIfInBounds, if_neg fun h => hx.1 h.1.symm]
    · intro x hx
      by_cases hin : x ∈ waiting
      · exact hdone x hin
      · obtain rfl : x = v := (List.mem_cons.1 hx).resolve_right hin
        refine ⟨d, ?_, hd⟩
        rw [hkeep x hin]
        simp only
        rw [getD_setIfInBounds, if_pos ⟨rfl, hvlt⟩]

end Settle

/-! ## The whole pass -/

/-- The vertices from position `n` on have been dealt with. -/
structure Progress (g : Digraph) (tree : List (Nat × Option Nat)) (n : Nat) (s : DominatorState) :
    Prop where
  known : SemiKnown g tree n s.forest
  bucket_size : s.bucket.size = g.size
  idom_size : s.idom.size = g.size
  waiting : ∀ x v, v ∈ s.bucket.getD x [] → v ∈ tree.map (·.1) ∧ n ≤ position tree v ∧
    s.forest.semiOf v = x ∧ ∀ c, TreeParent tree x c → Ancestor tree c v → position tree c < n
  settled : ∀ v ∈ tree.map (·.1), n ≤ position tree v →
    v ∈ s.bucket.getD (s.forest.semiOf v) [] ∨
      ∃ d, s.idom.getD v none = some d ∧ Settled g tree v d
  untouched : ∀ v, ¬ (v ∈ tree.map (·.1) ∧ n ≤ position tree v) → s.idom.getD v none = none

namespace Progress

variable {g : Digraph} {root : Nat} {tree : List (Nat × Option Nat)} {p w : Nat}
variable {s : DominatorState}

/-- `w` waits in the bucket of its semidominator and has been linked, the bucket of its parent has
not been emptied yet. -/
structure Filed (g : Digraph) (tree : List (Nat × Option Nat)) (w : Nat) (s : DominatorState) :
    Prop where
  known : SemiKnown g tree (position tree w) s.forest
  bucket_size : s.bucket.size = g.size
  idom_size : s.idom.size = g.size
  waiting : ∀ x v, v ∈ s.bucket.getD x [] → v ∈ tree.map (·.1) ∧
    position tree w ≤ position tree v ∧ s.forest.semiOf v = x ∧
    ∀ c, TreeParent tree x c → Ancestor tree c v → position tree c ≤ position tree w
  settled : ∀ v ∈ tree.map (·.1), position tree w ≤ position tree v →
    v ∈ s.bucket.getD (s.forest.semiOf v) [] ∨
      ∃ d, s.idom.getD v none = some d ∧ Settled g tree v d
  untouched : ∀ v, ¬ (v ∈ tree.map (·.1) ∧ position tree w ≤ position tree v) →
    s.idom.getD v none = none

theorem mem_getD_modify_append {bucket : Array (List Nat)} {q v x : Nat} (hq : q < bucket.size) :
    v ∈ (bucket.modify q fun waiting => waiting ++ [w]).getD x [] ↔
      v ∈ bucket.getD x [] ∨ (v = w ∧ x = q) := by
  rw [getD_modify]
  by_cases hx : q = x
  · subst hx
    simp [hq]
  · simp [hx, Ne.symm hx]

/-- Finding the semidominator of a vertex and filing it there. -/
theorem file (ht : IsSearchTree g root tree) (hp : TreeParent tree p w) {preds : List Nat}
    (hpreds : ∀ v, v ∈ preds ↔ v ∈ tree.map (·.1) ∧ g.Edge v w)
    (h : Progress g tree (position tree w + 1) s) {f : Forest}
    (hf : f = semidominator s.forest w preds) :
    Filed g tree w
      { forest := f.link w p
        bucket := s.bucket.modify (f.semiOf w) fun waiting => waiting ++ [w]
        idom := s.idom } := by
  have hw := IsSearchTree.child_mem hp
  obtain ⟨hlinked, hwq, hothers⟩ := semidominator_spec ht h.known hp hpreds
  rw [← hf] at hlinked hwq hothers
  have hsemi : ∀ v, (f.link w p).semiOf v = f.semiOf v := fun _ => rfl
  have hmem := fun x v => mem_getD_modify_append (w := w) (v := v) (x := x)
    (show f.semiOf w < s.bucket.size from h.bucket_size ▸ ((ht.mem_iff _).1 hwq.1).right_lt)
  refine
    { known := h.known.link ht hp hlinked hwq hothers
      bucket_size := by simpa using h.bucket_size
      idom_size := h.idom_size
      waiting := ?waiting
      settled := ?settled
      untouched := fun v hv => h.untouched v fun hc => hv ⟨hc.1, Nat.le_of_succ_le hc.2⟩ }
  case waiting =>
    intro x v hv
    rw [hsemi]
    rcases (hmem x v).1 hv with hold | ⟨rfl, rfl⟩
    · obtain ⟨hv, hle, hx, hchild⟩ := h.waiting x v hold
      have hvw : v ≠ w := by
        rintro rfl
        exact Nat.not_succ_le_self _ hle
      exact ⟨hv, Nat.le_of_succ_le hle, (hothers v hvw).trans hx,
        fun c hxc hcv => Nat.lt_succ_iff.1 (hchild c hxc hcv)⟩
    · exact ⟨hw, le_rfl, rfl, fun c _ hcv => ht.ancestor_le hcv⟩
  case settled =>
    intro v hv hle
    rw [hsemi, hmem]
    by_cases hvw : v = w
    · subst hvw
      exact .inl (.inr ⟨rfl, rfl⟩)
    · rw [hothers v hvw]
      exact (h.settled v hv (lt_position hv hvw hle)).imp_left .inl

/-- Emptying the bucket of the parent settles the vertices in it.  The others go on waiting: `w` is
no child of the vertices that they wait for. -/
theorem Filed.release (ht : IsSearchTree g root tree) (hp : TreeParent tree p w)
    (h : Filed g tree w s) :
    Progress g tree (position tree w)
      ((s.bucket.getD p []).foldl (settle p) { s with bucket := s.bucket.setIfInBounds p [] }) := by
  obtain ⟨s', hs', hbucket, hsemi', hk', hsize', hkeep, hdone⟩ :=
    settle_fold (s := { s with bucket := s.bucket.setIfInBounds p [] }) ht hp (s.bucket.getD p [])
      h.known (h.waiting p) h.idom_size
  rw [← hs']
  have hplt : p < s.bucket.size := by
    rw [h.bucket_size]
    exact ((ht.mem_iff p).1 (ht.parent_mem hp)).right_lt
  have hempty : ∀ x, s'.bucket.getD x [] = if p = x then [] else s.bucket.getD x [] := by
    intro x
    rw [hbucket, getD_setIfInBounds]
    by_cases hx : p = x
    · subst hx
      simp [hplt]
    · simp [hx]
  have hsame : ∀ v, s'.forest.semiOf v = s.forest.semiOf v := by
    intro v
    simp only [Forest.semiOf, hsemi']
  refine
    { known := hk'
      bucket_size := by rw [hbucket]; simpa using h.bucket_size
      idom_size := hsize'
      waiting := ?waiting
      settled := ?settled
      untouched := ?untouched }
  case waiting =>
    intro x v hv
    rw [hempty] at hv
    split at hv
    · simp at hv
    · rename_i hpx
      obtain ⟨hmem, hle, hx, hchild⟩ := h.waiting x v hv
      refine ⟨hmem, hle, (hsame v).trans hx, fun c hxc hcv => lt_of_le_of_ne (hchild c hxc hcv) ?_⟩
      intro heq
      rw [position_inj (IsSearchTree.child_mem hxc) heq] at hxc
      exact hpx (ht.parent_unique hp hxc)
  case settled =>
    intro v hv hle
    by_cases hwait : v ∈ s.bucket.getD p []
    · exact .inr (hdone v hwait)
    · rw [hkeep v hwait, hsame, hempty]
      refine (h.settled v hv hle).imp_left fun hin => ?_
      rwa [if_neg]
      rintro rfl
      exact hwait hin
  case untouched =>
    intro v hv
    have hwait : v ∉ s.bucket.getD p [] := fun hin =>
      hv ⟨(h.waiting p v hin).1, (h.waiting p v hin).2.1⟩
    rw [hkeep v hwait]
    exact h.untouched v hv

/-- One vertex with its tree parent. -/
theorem step (ht : IsSearchTree g root tree) (hp : TreeParent tree p w)
    {preds : Array (List Nat)}
    (hpreds : ∀ v, v ∈ preds.getD w [] ↔ v ∈ tree.map (·.1) ∧ g.Edge v w)
    (h : Progress g tree (position tree w + 1) s) :
    Progress g tree (position tree w) (dominatorStep preds s w p) :=
  (h.file ht hp hpreds rfl).release ht hp

theorem initial (ht : IsSearchTree g root tree) :
    Progress g tree tree.length (g.initialState tree) := by
  have hlt : ∀ v ∈ tree.map (·.1), position tree v < tree.length := fun v hv =>
    position_lt_length hv
  have hnone : ∀ v, (g.initialForest tree).ancestorOf v = none := by
    intro v
    simp only [initialForest, Forest.ancestorOf, Array.getD_eq_getD_getElem?]
    by_cases hv : v < g.size <;> simp [hv]
  have hself : ∀ v, (Array.range g.size).getD v v = v := by
    intro v
    by_cases hv : v < g.size <;> simp [Array.getD_eq_getD_getElem?, hv]
  refine
    { known :=
        { linked :=
            { number_eq := fun v hv => numbering_eq ht hv
              semi_size := by simp [initialState, initialForest]
              ancestor_size := by simp [initialState, initialForest]
              best_size := by simp [initialState, initialForest]
              unlinked := fun v _ hv => hlt v hv
              linked := fun v a hv => by simp [initialState, hnone] at hv
              best_self := fun v _ => hself v
              best_above := fun v a hv => by simp [initialState, hnone] at hv
              best_least := fun v a hv => by simp [initialState, hnone] at hv }
          found := fun v hv hle => absurd (hlt v hv) (not_lt.2 hle)
          ahead := fun v _ _ => hself v }
      bucket_size := by simp [initialState]
      idom_size := by simp [initialState]
      waiting := ?waiting
      settled := fun v hv hle => absurd (hlt v hv) (not_lt.2 hle)
      untouched := ?untouched }
  case waiting =>
    intro x v hv
    by_cases hx : x < g.size <;> simp [initialState, Array.getD_eq_getD_getElem?, hx] at hv
  case untouched =>
    intro v _
    by_cases hv : v < g.size <;> simp [initialState, Array.getD_eq_getD_getElem?, hv]

theorem position_of_append {pre suf : List (Nat × Option Nat)} {q : Option Nat}
    (hnodup : ((pre ++ (w, q) :: suf).map (·.1)).Nodup) :
    position (pre ++ (w, q) :: suf) w = pre.length := by
  have hnot : w ∉ pre.map (·.1) := by
    rw [List.map_append, List.nodup_append] at hnodup
    exact fun hmem => hnodup.2.2 w hmem w (by simp) rfl
  simp [position, List.idxOf_append_of_notMem hnot]

/-- The vertices of a final part of the tree, one after another from the last. -/
theorem suffix (ht : IsSearchTree g root tree) {preds : Array (List Nat)}
    (hpreds : ∀ w v, w ∈ tree.map (·.1) →
      (v ∈ preds.getD w [] ↔ v ∈ tree.map (·.1) ∧ g.Edge v w)) :
    ∀ (suf pre : List (Nat × Option Nat)), tree = pre ++ suf → pre ≠ [] →
      Progress g tree pre.length
        (suf.foldr
          (fun (e : Nat × Option Nat) s =>
            match e.2 with
            | some parent => dominatorStep preds s e.1 parent
            | none => s)
          (g.initialState tree)) := by
  intro suf
  induction suf with
  | nil =>
    intro pre htree _
    rw [List.append_nil] at htree
    subst htree
    exact initial ht
  | cons e suf ih =>
    obtain ⟨w, q⟩ := e
    intro pre htree hpre
    have hstep := ih (pre ++ [(w, q)]) (by simp [htree]) (by simp)
    have hpos : position tree w = pre.length := by
      rw [htree]
      exact position_of_append (htree ▸ ht.nodup)
    have hw : w ∈ tree.map (·.1) := by simp [htree]
    have hmem : (w, q) ∈ tree := by simp [htree]
    cases q with
    | none =>
      obtain rfl := ((ht.root_iff w).1 hmem).2
      rw [ht.position_root hw] at hpos
      exact absurd (List.length_eq_zero_iff.1 hpos.symm) hpre
    | some p =>
      rw [List.length_append, List.length_singleton, ← hpos] at hstep
      have := hstep.step ht (show TreeParent tree p w from hmem) fun v => hpreds w v hw
      rw [hpos] at this
      exact this

/-- **The pass.**  When only the root is left, every other vertex is settled. -/
theorem settled_of_one (ht : IsSearchTree g root tree) (h : Progress g tree 1 s) {v : Nat}
    (hv : v ∈ tree.map (·.1)) (hroot : v ≠ root) :
    ∃ d, s.idom.getD v none = some d ∧ Settled g tree v d := by
  have hlt := ht.ancestor_lt (ht.root_ancestor hv) hroot.symm
  have hle : 1 ≤ position tree v := by omega
  rcases h.settled v hv hle with hwait | hd
  · -- nothing waits any more: the child towards a waiting vertex would be the root
    obtain ⟨_, _, _, hchild⟩ := h.waiting _ v hwait
    have hsemi := h.known.found v hv hle
    obtain ⟨c, hc, hcv⟩ := IsSearchTree.child_toward (ht.semi_ancestor hsemi hv hroot)
      (ht.semi_ne hsemi hv hroot)
    have := hchild c hc hcv
    have := ht.parent_lt _ c hc
    omega
  · exact hd

end Progress

end Unroller.Digraph
