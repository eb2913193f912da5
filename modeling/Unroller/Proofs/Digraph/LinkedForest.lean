import Mathlib.Tactic
import Unroller.Digraph.Dominators
import Unroller.Proofs.Arrays
import Unroller.Proofs.Digraph.Semidominator

/-!
# The forest of linked vertices

While semidominators are computed, the vertices of the spanning tree are linked from the last to the
first.  `Linked` describes a forest in which those at position `n` and after are linked: the
recorded ancestor of a vertex is above it in the tree, everything it skips is linked, and the
recorded best vertex has the least semidominator among what is skipped.

`Records` says this of one vertex.  Two records, one above the other, make one (`Records.trans`), so
shortening a path keeps a forest as it should be (`Linked.shorten`), and so does compression, after
which the recorded ancestor is not linked itself (`Linked.compressFrom`).  Hence `eval` returns a
vertex of least semidominator among the linked ancestors (`Linked.eval_linked`), whatever was
compressed before.  Changing the semidominator of a vertex that is not linked (`Linked.lower`) and
linking the next one (`Linked.link`) are the other two updates.
-/

namespace Unroller.Digraph

namespace Forest

/-- The vertices from position `n` on are linked. -/
structure Linked (g : Digraph) (tree : List (Nat × Option Nat)) (n : Nat) (f : Forest) : Prop where
  number_eq : ∀ v ∈ tree.map (·.1), f.numberOf v = position tree v + 1
  semi_size : f.semi.size = g.size
  ancestor_size : f.ancestor.size = g.size
  best_size : f.best.size = g.size
  unlinked : ∀ v, f.ancestorOf v = none → v ∈ tree.map (·.1) → position tree v < n
  linked : ∀ v a, f.ancestorOf v = some a → v ∈ tree.map (·.1) ∧ Ancestor tree a v ∧ a ≠ v ∧
    ∀ u, Ancestor tree a u → u ≠ a → Ancestor tree u v → n ≤ position tree u
  best_self : ∀ v, f.ancestorOf v = none → f.bestOf v = v
  best_above : ∀ v a, f.ancestorOf v = some a →
    Ancestor tree a (f.bestOf v) ∧ f.bestOf v ≠ a ∧ Ancestor tree (f.bestOf v) v
  best_least : ∀ v a, f.ancestorOf v = some a →
    ∀ u, Ancestor tree a u → u ≠ a → Ancestor tree u v → f.key (f.bestOf v) ≤ f.key u

/-- It is right to record `a` as the ancestor of `v`, and `best` as the best vertex below it. -/
structure Records (tree : List (Nat × Option Nat)) (n : Nat) (f : Forest) (v a best : Nat) :
    Prop where
  mem : v ∈ tree.map (·.1)
  above : Ancestor tree a v
  ne : a ≠ v
  linked : ∀ u, Ancestor tree a u → u ≠ a → Ancestor tree u v → n ≤ position tree u
  path : Ancestor tree a best ∧ best ≠ a ∧ Ancestor tree best v
  least : ∀ u, Ancestor tree a u → u ≠ a → Ancestor tree u v → f.key best ≤ f.key u

namespace Records

variable {g : Digraph} {root : Nat} {tree : List (Nat × Option Nat)} {n : Nat} {f f' : Forest}
variable {a b best best' p u v w : Nat}

/-- Records depend on the numbers of semidominators only. -/
theorem congr (h : Records tree n f v a best) (hkey : ∀ u, f'.key u = f.key u) :
    Records tree n f' v a best where
  __ := h
  least := fun u hau hua huv => by
    rw [hkey, hkey]
    exact h.least u hau hua huv

/-- Records stay right while more vertices are linked. -/
theorem mono {m : Nat} (h : Records tree n f v a best) (hm : m ≤ n) :
    Records tree m f v a best where
  __ := h
  linked := fun u hau hua huv => hm.trans (h.linked u hau hua huv)

/-- What lies between `b` and `v` lies between `b` and `a` or between `a` and `v`. -/
theorem cut (ht : IsSearchTree g root tree) (h : Records tree n f v a best)
    (huv : Ancestor tree u v) : Ancestor tree u a ∨ (Ancestor tree a u ∧ u ≠ a) := by
  by_cases hle : position tree u ≤ position tree a
  · exact .inl (ht.comparable huv h.above h.mem hle)
  · refine .inr ⟨ht.comparable h.above huv h.mem (not_le.1 hle).le, ?_⟩
    rintro rfl
    exact hle le_rfl

/-- Two ancestors one above the other are skipped together, and the better best vertex is kept. -/
theorem trans (hva : Records tree n f v a best) (ht : IsSearchTree g root tree)
    (hab : Records tree n f a b best') :
    Records tree n f v b (if f.key best' < f.key best then best' else best) := by
  have hba := ht.ancestor_lt hab.above hab.ne
  refine
    { mem := hva.mem
      above := hab.above.trans hva.above
      ne := ?ne
      linked := fun u hbu hub huv => ?linked
      path := ?path
      least := fun u hbu hub huv => ?least }
  case ne =>
    rintro rfl
    have := ht.ancestor_lt hva.above hva.ne
    omega
  case linked =>
    rcases hva.cut ht huv with hua | ⟨hau, hua⟩
    · exact hab.linked u hbu hub hua
    · exact hva.linked u hau hua huv
  case path =>
    split
    · exact ⟨hab.path.1, hab.path.2.1, hab.path.2.2.trans hva.above⟩
    · obtain ⟨hax, -, hxv⟩ := hva.path
      refine ⟨hab.above.trans hax, ?_, hxv⟩
      rintro rfl
      have := ht.ancestor_le hax
      omega
  case least =>
    have hcase : f.key best' ≤ f.key u ∨ f.key best ≤ f.key u := by
      rcases hva.cut ht huv with hua | ⟨hau, hua⟩
      · exact .inl (hab.least u hbu hub hua)
      · exact .inr (hva.least u hau hua huv)
    split <;> omega

/-- A vertex by itself lies below its parent. -/
theorem of_parent (ht : IsSearchTree g root tree) (hp : TreeParent tree p w)
    (hn : n ≤ position tree w) : Records tree n f w p w := by
  have hpw : p ≠ w := by
    rintro rfl
    exact lt_irrefl _ (ht.parent_lt p p hp)
  have honly : ∀ u, Ancestor tree p u → u ≠ p → Ancestor tree u w → u = w := by
    intro u hpu hup huw
    rcases Relation.ReflTransGen.cases_tail huw with heq | ⟨q, huq, hqw⟩
    · exact heq.symm
    · obtain rfl := ht.parent_unique hp hqw
      have := ht.ancestor_lt hpu hup.symm
      have := ht.ancestor_le huq
      omega
  exact
    { mem := IsSearchTree.child_mem hp
      above := .single hp
      ne := hpw
      linked := fun u hpu hup huw => by rw [honly u hpu hup huw]; exact hn
      path := ⟨.single hp, hpw.symm, .refl⟩
      least := fun u hpu hup huw => by rw [honly u hpu hup huw] }

end Records

namespace Linked

variable {g : Digraph} {root : Nat} {tree : List (Nat × Option Nat)} {n : Nat} {f : Forest}
variable {a b u v w : Nat}

theorem le_position (h : Linked g tree n f) (hv : f.ancestorOf v = some a) :
    n ≤ position tree v := by
  obtain ⟨_, hav, hne, hlinked⟩ := h.linked v a hv
  exact hlinked v hav hne.symm .refl

theorem exists_ancestor (h : Linked g tree n f) (hv : v ∈ tree.map (·.1))
    (hn : n ≤ position tree v) : ∃ a, f.ancestorOf v = some a := by
  cases hanc : f.ancestorOf v with
  | none => exact absurd (h.unlinked v hanc hv) (not_lt.2 hn)
  | some a => exact ⟨a, rfl⟩

theorem records (h : Linked g tree n f) (ha : f.ancestorOf v = some a) :
    Records tree n f v a (f.bestOf v) := by
  obtain ⟨hv, hav, hne, hlinked⟩ := h.linked v a ha
  exact ⟨hv, hav, hne, hlinked, h.best_above v a ha, h.best_least v a ha⟩

/-- After an update, the records of all vertices that have an ancestor are looked at one by one. -/
theorem of_records (hnumber : ∀ v ∈ tree.map (·.1), f.numberOf v = position tree v + 1)
    (hsemi : f.semi.size = g.size) (hancestor : f.ancestor.size = g.size)
    (hbest : f.best.size = g.size)
    (hnone : ∀ v, f.ancestorOf v = none →
      (v ∈ tree.map (·.1) → position tree v < n) ∧ f.bestOf v = v)
    (hsome : ∀ v a, f.ancestorOf v = some a → Records tree n f v a (f.bestOf v)) :
    Linked g tree n f where
  number_eq := hnumber
  semi_size := hsemi
  ancestor_size := hancestor
  best_size := hbest
  unlinked := fun v hv => (hnone v hv).1
  linked := fun v a hv =>
    ⟨(hsome v a hv).mem, (hsome v a hv).above, (hsome v a hv).ne, (hsome v a hv).linked⟩
  best_self := fun v hv => (hnone v hv).2
  best_above := fun v a hv => (hsome v a hv).path
  best_least := fun v a hv => (hsome v a hv).least

/-! ## Shortening -/

theorem shorten_eq (ha : f.ancestorOf v = some a) :
    f.shorten v =
      { f with
        best := if f.key (f.bestOf a) < f.key (f.bestOf v) then f.best.setIfInBounds v (f.bestOf a)
          else f.best
        ancestor := f.ancestor.setIfInBounds v (f.ancestorOf a) } := by
  simp only [shorten, ha]

theorem key_shorten (ha : f.ancestorOf v = some a) (u : Nat) : (f.shorten v).key u = f.key u := by
  rw [shorten_eq ha]
  rfl

theorem ancestorOf_shorten (ha : f.ancestorOf v = some a) (hv : v < f.ancestor.size) (u : Nat) :
    (f.shorten v).ancestorOf u = if v = u then f.ancestorOf a else f.ancestorOf u := by
  rw [shorten_eq ha]
  simp only [ancestorOf, getD_setIfInBounds]
  by_cases hvu : v = u
  · subst hvu
    simp [hv]
  · simp [hvu]

theorem bestOf_shorten (ha : f.ancestorOf v = some a) (hv : v < f.best.size) (u : Nat) :
    (f.shorten v).bestOf u =
      if v = u ∧ f.key (f.bestOf a) < f.key (f.bestOf v) then f.bestOf a else f.bestOf u := by
  rw [shorten_eq ha]
  by_cases hlt : f.key (f.bestOf a) < f.key (f.bestOf v)
  · simp only [hlt, if_true, and_true]
    by_cases hvu : v = u
    · subst hvu
      rw [if_pos rfl, bestOf, getD_setIfInBounds, if_pos ⟨rfl, hv⟩]
    · rw [if_neg hvu, bestOf, getD_setIfInBounds, if_neg (by tauto), bestOf]
  · simp only [hlt, if_false, and_false]
    rfl

/-- Letting a vertex skip a linked ancestor keeps the forest as it should be. -/
theorem shorten (ht : IsSearchTree g root tree) (h : Linked g tree n f)
    (ha : f.ancestorOf v = some a) (hb : f.ancestorOf a = some b) :
    Linked g tree n (f.shorten v) := by
  have hskip := (h.records ha).trans ht (h.records hb)
  have hvlt : v < g.size := ((ht.mem_iff v).1 hskip.mem).right_lt
  have hanc := ancestorOf_shorten ha (by rw [h.ancestor_size]; exact hvlt)
  have hbest := bestOf_shorten ha (by rw [h.best_size]; exact hvlt)
  have hkey := key_shorten ha
  refine .of_records (fun u hu => ?number) ?semi ?ancestor ?best (fun u hu => ?unlinked)
    (fun u c hu => ?linked)
  case number =>
    rw [← h.number_eq u hu, shorten_eq ha]
    rfl
  case semi =>
    rw [shorten_eq ha]
    exact h.semi_size
  case ancestor =>
    rw [shorten_eq ha]
    simpa using h.ancestor_size
  case best =>
    rw [shorten_eq ha]
    simp only
    split <;> simpa using h.best_size
  case unlinked =>
    rw [hanc] at hu
    split at hu
    · rw [hb] at hu
      simp at hu
    · rename_i hvu
      rw [hbest, if_neg (by tauto)]
      exact ⟨h.unlinked u hu, h.best_self u hu⟩
  case linked =>
    rw [hanc] at hu
    rw [hbest]
    split at hu
    · rename_i hvu
      subst hvu
      obtain rfl : b = c := by simpa [hb] using hu
      simpa only [true_and] using hskip.congr hkey
    · rename_i hvu
      rw [if_neg (by tauto)]
      exact (h.records hu).congr hkey

/-! ## Compression -/

/-- Compressing the path above `v` keeps the forest as it should be, does not touch anything after
`v`, and leaves `v` below a vertex that is not linked. -/
theorem compressFrom (ht : IsSearchTree g root tree) (h : Linked g tree n f) (fuel : Nat)
    (ha : f.ancestorOf v = some a) (hfuel : position tree v < fuel) :
    ∃ f', f' = (f.climb fuel v).foldr (fun w f => f.shorten w) f ∧ Linked g tree n f' ∧
      f'.semi = f.semi ∧ f'.number = f.number ∧
      (∀ u, position tree v < position tree u → f'.ancestorOf u = f.ancestorOf u) ∧
      ∃ r, f'.ancestorOf v = some r ∧ f'.ancestorOf r = none := by
  induction fuel generalizing v a with
  | zero => omega
  | succ fuel ih =>
    obtain ⟨hv, hav, hane, _⟩ := h.linked v a ha
    have hlt := ht.ancestor_lt hav hane
    cases hb : f.ancestorOf a with
    | none =>
      refine ⟨f, by simp [climb, ha, hb], h, rfl, rfl, fun _ _ => rfl, a, ha, hb⟩
    | some b =>
      obtain ⟨f', hf', h', hsemi, hnumber, hframe, r, hr, hnone⟩ := ih hb (by omega)
      have hva : f'.ancestorOf v = some a := by rw [hframe v hlt, ha]
      have hvlt : v < f'.ancestor.size := by
        rw [h'.ancestor_size]
        exact ((ht.mem_iff v).1 hv).right_lt
      have hanc := ancestorOf_shorten hva hvlt
      refine ⟨f'.shorten v, ?_, h'.shorten ht hva hr, ?_, ?_, ?_, r, ?_, ?_⟩
      · rw [hf']
        simp [climb, ha, hb]
      · rw [shorten_eq hva]
        exact hsemi
      · rw [shorten_eq hva]
        exact hnumber
      · intro u hu
        rw [hanc, if_neg (by rintro rfl; omega), hframe u (by omega)]
      · rw [hanc, if_pos rfl, hr]
      · have hrv : v ≠ r := by
          obtain ⟨_, hra, hrne, _⟩ := h'.linked a r hr
          have := ht.ancestor_lt hra hrne
          rintro rfl
          omega
        rw [hanc, if_neg hrv, hnone]

/-! ## Evaluation -/

theorem position_lt_size (ht : IsSearchTree g root tree) (hv : v ∈ tree.map (·.1)) :
    position tree v < g.size := by
  refine lt_of_lt_of_le (position_lt_length hv) ?_
  have hsub : tree.map (·.1) ⊆ List.range g.size := by
    intro u hu
    exact List.mem_range.2 ((ht.mem_iff u).1 hu).right_lt
  simpa using (List.subperm_of_subset ht.nodup hsub).length_le

/-- A vertex that is not linked evaluates to itself. -/
theorem eval_unlinked (h : Linked g tree n f) (hn : position tree v < n) : f.eval v = (v, f) := by
  cases ha : f.ancestorOf v with
  | none => simp [eval, ha]
  | some a => exact absurd (h.le_position ha) (not_le.2 hn)

/-- **Evaluation.**  A linked vertex evaluates to a linked ancestor of least semidominator; the
paths that this shortens do not matter to later evaluations. -/
theorem eval_linked (ht : IsSearchTree g root tree) (h : Linked g tree n f)
    (hv : v ∈ tree.map (·.1)) (hn : n ≤ position tree v) :
    ∃ u f', f.eval v = (u, f') ∧ Linked g tree n f' ∧ f'.semi = f.semi ∧ f'.number = f.number ∧
      Ancestor tree u v ∧ n ≤ position tree u ∧
      ∀ x, Ancestor tree x v → n ≤ position tree x → f.key u ≤ f.key x := by
  obtain ⟨a, ha⟩ := h.exists_ancestor hv hn
  obtain ⟨f', hf', h', hsemi, hnumber, -, r, hr, hnone⟩ :=
    h.compressFrom ht f.ancestor.size ha (by rw [h.ancestor_size]; exact position_lt_size ht hv)
  have heval : f.eval v = (f'.bestOf v, f') := by
    simp only [eval, ha, compress, ← hf']
  have hkey : ∀ x, f'.key x = f.key x := by
    intro x
    simp only [key, semiOf, numberOf, hsemi, hnumber]
  obtain ⟨_, hrv, hrne, hlinked⟩ := h'.linked v r hr
  obtain ⟨h1, h2, h3⟩ := h'.best_above v r hr
  refine ⟨f'.bestOf v, f', heval, h', hsemi, hnumber, h3, hlinked _ h1 h2 h3, fun x hxv hx => ?_⟩
  -- the linked ancestors of `v` are those below `r`
  have hrpos : position tree r < n := h'.unlinked r hnone (ht.ancestor_mem hrv hv)
  have hrx := ht.comparable hrv hxv hv (by omega)
  have hxr : x ≠ r := by
    rintro rfl
    omega
  rw [← hkey, ← hkey]
  exact h'.best_least v r hr x hrx hxr hxv

end Linked

/-! ## Lowering and linking -/

variable {g : Digraph} {root : Nat} {tree : List (Nat × Option Nat)} {n : Nat} {f : Forest}
variable {p u v w x : Nat}

theorem semiOf_lower (hw : w < f.semi.size) :
    (f.lower w u).semiOf x = if x = w ∧ f.key u < f.key w then f.semiOf u else f.semiOf x := by
  unfold lower
  by_cases hlt : f.key u < f.key w
  · simp only [hlt, if_true, and_true]
    by_cases hx : x = w
    · subst hx
      rw [if_pos rfl, semiOf, getD_setIfInBounds, if_pos ⟨rfl, hw⟩]
    · rw [if_neg hx, semiOf, getD_setIfInBounds, if_neg fun h => hx h.1.symm, semiOf]
  · simp only [hlt, if_false, and_false]

theorem numberOf_lower : (f.lower w u).numberOf x = f.numberOf x := by
  unfold lower
  split <;> rfl

theorem key_lower (hw : w < f.semi.size) :
    (f.lower w u).key x = if x = w then min (f.key u) (f.key w) else f.key x := by
  rw [key, numberOf_lower, semiOf_lower hw]
  by_cases hx : x = w
  · subst hx
    simp only [true_and, if_true]
    split
    · rename_i hlt
      rw [min_eq_left hlt.le, key]
    · rename_i hlt
      rw [min_eq_right (not_lt.1 hlt), key]
  · simp [hx, key]

/-- The semidominator of a vertex that is not linked yet may change. -/
theorem Linked.lower (h : Linked g tree n f) (hw : w < g.size) (hn : position tree w < n) :
    Linked g tree n (f.lower w u) := by
  have hkey := fun x =>
    key_lower (x := x) (u := u) (f := f) (w := w) (by rw [h.semi_size]; exact hw)
  have hanc : ∀ v, (f.lower w u).ancestorOf v = f.ancestorOf v := by
    intro v
    unfold Forest.lower
    split <;> rfl
  have hbest : ∀ v, (f.lower w u).bestOf v = f.bestOf v := by
    intro v
    unfold Forest.lower
    split <;> rfl
  refine .of_records (fun v hv => ?number) ?semi ?ancestor ?best (fun v hv => ?unlinked)
    (fun v a hv => ?linked)
  case number =>
    rw [numberOf_lower]
    exact h.number_eq v hv
  case semi =>
    unfold Forest.lower
    split <;> simpa using h.semi_size
  case ancestor =>
    unfold Forest.lower
    split <;> exact h.ancestor_size
  case best =>
    unfold Forest.lower
    split <;> exact h.best_size
  case unlinked =>
    rw [hanc] at hv
    exact ⟨h.unlinked v hv, (hbest v).trans (h.best_self v hv)⟩
  case linked =>
    rw [hanc] at hv
    rw [hbest]
    have hrec := h.records hv
    -- the vertices compared are linked
    have hne : ∀ x, Ancestor tree a x → x ≠ a → Ancestor tree x v → x ≠ w := by
      rintro x hax hxa hxv rfl
      exact absurd (hrec.linked x hax hxa hxv) (not_le.2 hn)
    obtain ⟨h1, h2, h3⟩ := hrec.path
    refine { hrec with least := fun x hax hxa hxv => ?_ }
    rw [hkey, hkey, if_neg (hne x hax hxa hxv), if_neg (hne _ h1 h2 h3)]
    exact hrec.least x hax hxa hxv

/-- Linking the last vertex that is not linked yet. -/
theorem Linked.link (ht : IsSearchTree g root tree) (hp : TreeParent tree p w)
    (h : Linked g tree (position tree w + 1) f) : Linked g tree (position tree w) (f.link w p) := by
  have hwlt : w < g.size := ((ht.mem_iff w).1 (IsSearchTree.child_mem hp)).right_lt
  have hnone : f.ancestorOf w = none := by
    cases ha : f.ancestorOf w with
    | none => rfl
    | some a => exact absurd (h.le_position ha) (by omega)
  have hanc : ∀ v, (f.link w p).ancestorOf v = if w = v then some p else f.ancestorOf v := by
    intro v
    simp only [Forest.link, ancestorOf, getD_setIfInBounds, h.ancestor_size]
    by_cases hwv : w = v
    · subst hwv
      simp [hwlt]
    · simp [hwv]
  have hbest : ∀ v, (f.link w p).bestOf v = f.bestOf v := fun v => rfl
  refine .of_records h.number_eq h.semi_size (by simpa [Forest.link] using h.ancestor_size)
    h.best_size (fun v hv => ?unlinked) (fun v a hv => ?linked)
  case unlinked =>
    rw [hanc] at hv
    split at hv
    · simp at hv
    · rename_i hwv
      refine ⟨fun hmem => ?_, h.best_self v hv⟩
      have hlt := h.unlinked v hv hmem
      have hne : position tree v ≠ position tree w := fun heq => hwv (position_inj hmem heq).symm
      omega
  case linked =>
    rw [hanc] at hv
    rw [hbest]
    split at hv
    · rename_i hwv
      subst hwv
      obtain rfl : p = a := by simpa using hv
      rw [h.best_self w hnone]
      exact .of_parent ht hp le_rfl
    · exact ((h.records hv).mono (Nat.le_succ _)).congr fun _ => rfl

end Forest

end Unroller.Digraph
