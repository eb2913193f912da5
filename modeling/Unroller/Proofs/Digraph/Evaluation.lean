import Mathlib.Tactic
import Unroller.Proofs.Digraph.DominatorPass

/-!
# Evaluation while vertices are linked

The pass from the last vertex to the first changes its forest in three ways: it evaluates a vertex,
it takes a predecessor of a vertex into account for the semidominator of that vertex, and it links a
vertex below its tree parent.  `passUpdates` lists these `Update`s in the order in which they are
made (`forest_dealtWith`), so a moment of the pass is an initial part of this list.

Evaluations shorten paths and so change the forest, but nothing that is ever asked of it:

* `Follows tree n ops m`: the updates `ops` lead from the vertices from position `n` on being linked
  to those from `m` on; calls of `eval` may stand anywhere among them (`follows_changes`).
* `Alike g tree n f f'`: two forests with the same vertices linked and the same semidominator
  numbers, whatever was shortened in either.  Every update keeps it (`Follows.alike`), and two such
  forests evaluate a vertex to the same least number (`Alike.report`).
* `evaluation_exact`: what `eval` gives at every moment of the pass.
-/

namespace Unroller.Digraph

namespace Forest

/-! ## Updates -/

/-- One change of the forest. -/
inductive Update
  /-- A call of `eval`. -/
  | eval (v : Nat)
  /-- The predecessor `v` of `w` is looked at for the semidominator of `w`. -/
  | scan (w v : Nat)
  /-- The vertex `w` is linked below its tree parent. -/
  | link (w parent : Nat)
deriving DecidableEq

/-- Whether an update is nothing but a call of `eval`. -/
def Update.isCall : Update → Bool
  | .eval _ => true
  | _ => false

/-- The forest after one change. -/
def update (f : Forest) : Update → Forest
  | .eval v => (f.eval v).2
  | .scan w v => (f.eval v).2.lower w (f.eval v).1
  | .link w parent => f.link w parent

/-- The forest after some changes, the first of them made first. -/
def updates (f : Forest) (ops : List Update) : Forest := ops.foldl update f

/-- The updates without the calls. -/
def changes (ops : List Update) : List Update := ops.filter fun op => !op.isCall

/-- The vertices that are linked. -/
def linkedBy (ops : List Update) : List Nat :=
  ops.filterMap fun
    | .link w _ => some w
    | _ => none

theorem updates_append (f : Forest) (ops ops' : List Update) :
    f.updates (ops ++ ops') = (f.updates ops).updates ops' := List.foldl_append

/-- The loop of `compress`, each read of a recorded ancestor written out: it stops at a vertex whose
ancestor is not linked, and otherwise goes on from the ancestor.  In no case does it read the
ancestor of something that is not a vertex. -/
inductive Chases (f : Forest) : Nat → List Nat → Prop
  | stop {v a : Nat} (hv : f.ancestor[v]? = some (some a)) (ha : f.ancestor[a]? = some none) :
      Chases f v []
  | climb {v a b : Nat} {path : List Nat} (hv : f.ancestor[v]? = some (some a))
      (ha : f.ancestor[a]? = some (some b)) (rest : Chases f a path) : Chases f v (v :: path)

end Forest

open Forest

/-! ## The updates of the pass -/

/-- The vertices that wait for the parent of `w` when `w` has been linked. -/
def waitingFor (preds : Array (List Nat)) (s : DominatorState) (w parent : Nat) : List Nat :=
  let f := semidominator s.forest w (preds.getD w [])
  (s.bucket.modify (f.semiOf w) fun waiting => waiting ++ [w]).getD parent []

/-- The updates made for one vertex. -/
def stepUpdates (preds : Array (List Nat)) (s : DominatorState) (w parent : Nat) : List Update :=
  (preds.getD w []).map (.scan w) ++
    .link w parent :: (waitingFor preds s w parent).map .eval

/-- The state when the vertices of `after`, a final part of `tree`, have been dealt with. -/
def dealtWith (g : Digraph) (tree : List (Nat × Option Nat)) (preds : Array (List Nat))
    (after : List (Nat × Option Nat)) : DominatorState :=
  after.foldr
    (fun (e : Nat × Option Nat) s =>
      match e.2 with
      | some parent => dominatorStep preds s e.1 parent
      | none => s)
    (g.initialState tree)

/-- The updates made for the vertices of `after`, the last of them first. -/
def passUpdates (g : Digraph) (tree : List (Nat × Option Nat)) (preds : Array (List Nat)) :
    (after : List (Nat × Option Nat)) → List Update
  | [] => []
  | (w, some parent) :: after =>
    passUpdates g tree preds after ++ stepUpdates preds (g.dealtWith tree preds after) w parent
  | (_, none) :: after => passUpdates g tree preds after

theorem semidominator_eq_updates (f : Forest) (w : Nat) (preds : List Nat) :
    semidominator f w preds = f.updates (preds.map (.scan w)) := by
  rw [updates, List.foldl_map]
  rfl

theorem forest_foldl_settle (parent : Nat) (waiting : List Nat) (s : DominatorState) :
    (waiting.foldl (settle parent) s).forest = s.forest.updates (waiting.map .eval) := by
  induction waiting generalizing s with
  | nil => rfl
  | cons v waiting ih => exact ih (settle parent s v)

theorem forest_dominatorStep (preds : Array (List Nat)) (s : DominatorState) (w parent : Nat) :
    (dominatorStep preds s w parent).forest = s.forest.updates (stepUpdates preds s w parent) := by
  rw [stepUpdates, updates_append, ← semidominator_eq_updates]
  exact forest_foldl_settle ..

/-- The listed updates are those that the pass makes. -/
theorem forest_dealtWith (g : Digraph) (tree : List (Nat × Option Nat)) (preds : Array (List Nat))
    (after : List (Nat × Option Nat)) :
    (g.dealtWith tree preds after).forest =
      (g.initialForest tree).updates (g.passUpdates tree preds after) := by
  induction after with
  | nil => rfl
  | cons e after ih =>
    obtain ⟨w, q⟩ := e
    cases q with
    | none => exact ih
    | some parent =>
      rw [passUpdates, updates_append, ← ih]
      exact forest_dominatorStep ..

/-! ## Which vertices are linked -/

/-- The updates lead from the vertices from position `n` on being linked to those from `m` on. -/
inductive Follows (tree : List (Nat × Option Nat)) : Nat → List Update → Nat → Prop
  | nil {n : Nat} : Follows tree n [] n
  | eval {n m v : Nat} {ops : List Update} (rest : Follows tree n ops m) :
      Follows tree n (.eval v :: ops) m
  | scan {n m w v : Nat} {ops : List Update} (hw : w ∈ tree.map (·.1)) (hn : position tree w < n)
      (rest : Follows tree n ops m) : Follows tree n (.scan w v :: ops) m
  | link {m w p : Nat} {ops : List Update} (hp : TreeParent tree p w)
      (rest : Follows tree (position tree w) ops m) :
      Follows tree (position tree w + 1) (.link w p :: ops) m

section Follows

variable {g : Digraph} {root : Nat} {tree : List (Nat × Option Nat)} {preds : Array (List Nat)}
variable {n m k p v w : Nat} {ops ops' : List Update}

theorem Follows.append (h : Follows tree n ops k) (h' : Follows tree k ops' m) :
    Follows tree n (ops ++ ops') m := by
  induction h with
  | nil => exact h'
  | eval _ ih => exact .eval (ih h')
  | scan hw hn _ ih => exact .scan hw hn (ih h')
  | link hp _ ih => exact .link hp (ih h')

theorem Follows.of_append (h : Follows tree n (ops ++ ops') m) : ∃ k, Follows tree n ops k := by
  induction ops generalizing n with
  | nil => exact ⟨n, .nil⟩
  | cons op ops ih =>
    cases h with
    | eval rest =>
      obtain ⟨k, hk⟩ := ih rest
      exact ⟨k, .eval hk⟩
    | scan hw hn rest =>
      obtain ⟨k, hk⟩ := ih rest
      exact ⟨k, .scan hw hn hk⟩
    | link hp rest =>
      obtain ⟨k, hk⟩ := ih rest
      exact ⟨k, .link hp hk⟩

/-- Calls make no difference. -/
theorem follows_changes : Follows tree n (changes ops) m ↔ Follows tree n ops m := by
  induction ops generalizing n with
  | nil => rfl
  | cons op ops ih =>
    cases op with
    | eval v => exact ih.trans ⟨.eval, fun h => by cases h; assumption⟩
    | scan w v =>
      constructor
      · rintro (_ | _ | ⟨hw, hn, rest⟩)
        exact .scan hw hn (ih.1 rest)
      · rintro (_ | _ | ⟨hw, hn, rest⟩)
        exact .scan hw hn (ih.2 rest)
    | link w p =>
      constructor
      · rintro (_ | _ | _ | ⟨hp, rest⟩)
        exact .link hp (ih.1 rest)
      · rintro (_ | _ | _ | ⟨hp, rest⟩)
        exact .link hp (ih.2 rest)

/-- The vertices linked are those between the two positions. -/
theorem Follows.mem_linkedBy (h : Follows tree n ops m) :
    m ≤ n ∧ ∀ v, v ∈ linkedBy ops ↔ v ∈ tree.map (·.1) ∧ m ≤ position tree v ∧
      position tree v < n := by
  induction h with
  | nil => exact ⟨le_rfl, fun v => by simp [linkedBy]⟩
  | eval _ ih => exact ih
  | scan _ _ _ ih => exact ih
  | @link m w p ops hp _ ih =>
    obtain ⟨hle, ih⟩ := ih
    refine ⟨by omega, fun v => ?_⟩
    have hcons : v ∈ linkedBy (.link w p :: ops) ↔ v = w ∨ v ∈ linkedBy ops := by simp [linkedBy]
    rw [hcons, ih v]
    constructor
    · rintro (rfl | ⟨hv, hmv, hlt⟩)
      · exact ⟨IsSearchTree.child_mem hp, hle, by omega⟩
      · exact ⟨hv, hmv, by omega⟩
    · rintro ⟨hv, hmv, hlt⟩
      by_cases hvw : v = w
      · exact .inl hvw
      · have : position tree v ≠ position tree w := fun heq => hvw (position_inj hv heq)
        exact .inr ⟨hv, hmv, by omega⟩

/-- One vertex with its tree parent. -/
theorem follows_stepUpdates (hp : TreeParent tree p w) (s : DominatorState) :
    Follows tree (position tree w + 1) (stepUpdates preds s w p) (position tree w) := by
  have hscan : ∀ vs : List Nat,
      Follows tree (position tree w + 1) (vs.map (.scan w)) (position tree w + 1) := by
    intro vs
    induction vs with
    | nil => exact .nil
    | cons v vs ih => exact .scan (IsSearchTree.child_mem hp) (Nat.lt_succ_self _) ih
  have heval : ∀ vs : List Nat,
      Follows tree (position tree w) (vs.map .eval) (position tree w) := by
    intro vs
    induction vs with
    | nil => exact .nil
    | cons v vs ih => exact .eval ih
  exact (hscan _).append (.link hp (heval _))

/-- The vertices of a final part of the tree. -/
theorem follows_passUpdates (ht : IsSearchTree g root tree)
    (before after : List (Nat × Option Nat)) (htree : tree = before ++ after)
    (hbefore : before ≠ []) :
    Follows tree tree.length (g.passUpdates tree preds after) before.length := by
  induction after generalizing before with
  | nil =>
    rw [htree, List.append_nil]
    exact .nil
  | cons e after ih =>
    obtain ⟨w, q⟩ := e
    have hrest := ih (before ++ [(w, q)]) (by simp [htree]) (by simp)
    have hpos : position tree w = before.length := by
      rw [htree]
      exact Progress.position_of_append (htree ▸ ht.nodup)
    have hmem : (w, q) ∈ tree := by simp [htree]
    cases q with
    | none =>
      obtain ⟨hw, rfl⟩ := (ht.root_iff w).1 hmem
      rw [ht.position_root hw] at hpos
      exact absurd (List.length_eq_zero_iff.1 hpos.symm) hbefore
    | some p =>
      rw [List.length_append, List.length_singleton, ← hpos] at hrest
      rw [← hpos]
      exact hrest.append (follows_stepUpdates hmem _)

/-- Every moment of the pass, with calls made in between. -/
theorem follows_moment (hroot : root < g.size) {done : List Update}
    (hdone : done <+: g.passUpdates (g.spanningTree root) preds (g.spanningTree root))
    (hops : changes ops = changes done) :
    ∃ m, Follows (g.spanningTree root) (g.spanningTree root).length ops m ∧
      Follows (g.spanningTree root) (g.spanningTree root).length done m := by
  have ht := spanningTree_isSearchTree hroot
  have hmem : root ∈ (g.spanningTree root).map (·.1) := (ht.mem_iff root).2 (.refl hroot)
  generalize g.spanningTree root = tree at ht hmem hdone
  obtain ⟨⟨w, q⟩, after, rfl⟩ :=
    List.exists_cons_of_ne_nil (l := tree) (by rintro rfl; simp at hmem)
  obtain ⟨m, hm⟩ : ∃ m, Follows ((w, q) :: after) ((w, q) :: after).length done m := by
    obtain ⟨later, hlater⟩ := hdone
    cases q with
    | none =>
      have hpass : Follows ((w, none) :: after) ((w, none) :: after).length (done ++ later) 1 := by
        rw [hlater]
        exact follows_passUpdates ht [(w, none)] after rfl (by simp)
      exact hpass.of_append
    | some p =>
      have := ht.parent_lt p w (by simp [TreeParent])
      simp [position] at this
  exact ⟨m, follows_changes.1 (hops ▸ follows_changes.2 hm), hm⟩

end Follows

/-! ## What an update leaves as it is -/

section Linked

variable {g : Digraph} {root : Nat} {tree : List (Nat × Option Nat)} {n m : Nat}
variable {f f' : Forest} {ops : List Update} {v w p x : Nat}

theorem Forest.Linked.getElem?_ancestor (ht : IsSearchTree g root tree) (h : Linked g tree n f)
    (hv : v ∈ tree.map (·.1)) : f.ancestor[v]? = some (f.ancestorOf v) := by
  have hlt : v < f.ancestor.size := by
    rw [h.ancestor_size]
    exact ((ht.mem_iff v).1 hv).right_lt
  simp [ancestorOf, Array.getD_eq_getD_getElem?, hlt]

/-- Whatever is not linked evaluates to itself. -/
theorem Forest.Linked.eval_of_not_linked (h : Linked g tree n f)
    (hv : ¬ (v ∈ tree.map (·.1) ∧ n ≤ position tree v)) : f.eval v = (v, f) := by
  cases ha : f.ancestorOf v with
  | none => simp [Forest.eval, ha]
  | some a => exact absurd ⟨(h.linked v a ha).1, h.le_position ha⟩ hv

theorem Forest.Linked.eval (ht : IsSearchTree g root tree) (h : Linked g tree n f) (v : Nat) :
    Linked g tree n (f.eval v).2 ∧ ∀ x, (f.eval v).2.key x = f.key x := by
  by_cases hv : v ∈ tree.map (·.1) ∧ n ≤ position tree v
  · obtain ⟨u, f', heval, hlinked, hsemi, hnumber, -⟩ := h.eval_linked ht hv.1 hv.2
    rw [heval]
    exact ⟨hlinked, fun x => by simp only [key, semiOf, numberOf, hsemi, hnumber]⟩
  · rw [h.eval_of_not_linked hv]
    exact ⟨h, fun _ => rfl⟩

/-- In two forests the same vertices are linked and the semidominators have the same numbers. -/
structure Alike (g : Digraph) (tree : List (Nat × Option Nat)) (n : Nat) (f f' : Forest) :
    Prop where
  left : Linked g tree n f
  right : Linked g tree n f'
  key_eq : ∀ v, f.key v = f'.key v

namespace Alike

theorem symm (h : Alike g tree n f f') : Alike g tree n f' f :=
  ⟨h.right, h.left, fun v => (h.key_eq v).symm⟩

theorem trans {f'' : Forest} (h : Alike g tree n f f') (h' : Alike g tree n f' f'') :
    Alike g tree n f f'' :=
  ⟨h.left, h'.right, fun v => (h.key_eq v).trans (h'.key_eq v)⟩

theorem eval_left (ht : IsSearchTree g root tree) (h : Alike g tree n f f') (v : Nat) :
    Alike g tree n (f.eval v).2 f' :=
  ⟨(h.left.eval ht v).1, h.right, fun x => ((h.left.eval ht v).2 x).trans (h.key_eq x)⟩

theorem report_le (ht : IsSearchTree g root tree) (h : Alike g tree n f f') (v : Nat) :
    f.key (f.eval v).1 ≤ f'.key (f'.eval v).1 := by
  by_cases hv : v ∈ tree.map (·.1) ∧ n ≤ position tree v
  · obtain ⟨u, _, heval, -, -, -, -, -, hleast⟩ := h.left.eval_linked ht hv.1 hv.2
    obtain ⟨u', _, heval', -, -, -, huv', hu', -⟩ := h.right.eval_linked ht hv.1 hv.2
    rw [heval, heval', ← h.key_eq]
    exact hleast u' huv' hu'
  · rw [h.left.eval_of_not_linked hv, h.right.eval_of_not_linked hv]
    exact (h.key_eq v).le

/-- An evaluation reports the same number in both. -/
theorem report (ht : IsSearchTree g root tree) (h : Alike g tree n f f') (v : Nat) :
    f.key (f.eval v).1 = f'.key (f'.eval v).1 :=
  le_antisymm (h.report_le ht v) (h.symm.report_le ht v)

theorem scan (ht : IsSearchTree g root tree) (h : Alike g tree n f f')
    (hw : w ∈ tree.map (·.1)) (hn : position tree w < n) (v : Nat) :
    Alike g tree n (f.update (.scan w v)) (f'.update (.scan w v)) := by
  have hlt : w < g.size := ((ht.mem_iff w).1 hw).right_lt
  obtain ⟨hleft, hkey⟩ := h.left.eval ht v
  obtain ⟨hright, hkey'⟩ := h.right.eval ht v
  refine ⟨hleft.lower hlt hn, hright.lower hlt hn, fun x => ?_⟩
  rw [update, update, key_lower (by rw [hleft.semi_size]; exact hlt),
    key_lower (by rw [hright.semi_size]; exact hlt)]
  simp only [hkey, hkey', h.report ht v, h.key_eq]

theorem link (ht : IsSearchTree g root tree) (hp : TreeParent tree p w)
    (h : Alike g tree (position tree w + 1) f f') :
    Alike g tree (position tree w) (f.link w p) (f'.link w p) :=
  ⟨h.left.link ht hp, h.right.link ht hp, h.key_eq⟩

end Alike

/-- Updates with and without the calls among them. -/
theorem Follows.alike (ht : IsSearchTree g root tree) (hops : Follows tree n ops m)
    (h : Alike g tree n f f') : Alike g tree m (f.updates ops) (f'.updates (changes ops)) := by
  induction hops generalizing f f' with
  | nil => exact h
  | eval _ ih => exact ih (h.eval_left ht _)
  | scan hw hn _ ih => exact ih (h.scan ht hw hn _)
  | link hp _ ih => exact ih (h.link ht hp)

/-! ## The path to the first vertex that is not linked -/

/-- The vertices of the tree path from `v` up to, but excluding, `top`. -/
def OnPath (tree : List (Nat × Option Nat)) (top v x : Nat) : Prop :=
  Ancestor tree top x ∧ x ≠ top ∧ Ancestor tree x v

/-- The first vertex above `v` that is not linked. -/
structure FirstUnlinked (tree : List (Nat × Option Nat)) (linked : List Nat) (v top : Nat) :
    Prop where
  above : Ancestor tree top v
  unlinked : top ∉ linked
  path : ∀ x, OnPath tree top v x → x ∈ linked

/-- A linked vertex has a vertex above it that is not linked, everything below which, on the way to
the vertex, is. -/
theorem Forest.Linked.exists_top (ht : IsSearchTree g root tree) (h : Linked g tree n f)
    (hv : v ∈ tree.map (·.1)) (hn : n ≤ position tree v) :
    ∃ top, Ancestor tree top v ∧ position tree top < n ∧
      ∀ x, OnPath tree top v x → n ≤ position tree x := by
  obtain ⟨a, ha⟩ := h.exists_ancestor hv hn
  obtain ⟨f', -, h', -, -, -, top, htop, hnone⟩ :=
    h.compressFrom ht (position tree v + 1) ha (Nat.lt_succ_self _)
  obtain ⟨-, htopv, -, hpath⟩ := h'.linked v top htop
  exact ⟨top, htopv, h'.unlinked top hnone (ht.ancestor_mem htopv hv),
    fun x hx => hpath x hx.1 hx.2.1 hx.2.2⟩

/-- What a linked vertex evaluates to is on that path, and has the least number there. -/
theorem Forest.Linked.eval_onPath (ht : IsSearchTree g root tree) (h : Linked g tree n f)
    (hv : v ∈ tree.map (·.1)) (hn : n ≤ position tree v) {top : Nat} (htop : Ancestor tree top v)
    (htopn : position tree top < n) (hpath : ∀ x, OnPath tree top v x → n ≤ position tree x) :
    OnPath tree top v (f.eval v).1 ∧
      ∀ x, OnPath tree top v x → f.key (f.eval v).1 ≤ f.key x := by
  obtain ⟨u, f', heval, -, -, -, huv, hu, hleast⟩ := h.eval_linked ht hv hn
  have htopu : position tree top < position tree u := lt_of_lt_of_le htopn hu
  have hne : u ≠ top := by
    rintro rfl
    exact lt_irrefl _ htopu
  rw [heval]
  exact ⟨⟨ht.comparable htop huv hv htopu.le, hne, huv⟩, fun x hx =>
    hleast x hx.2.2 (hpath x hx)⟩

/-- The loop that collects the path to shorten. -/
theorem Forest.Linked.chases (ht : IsSearchTree g root tree) (h : Linked g tree n f) {a : Nat}
    (ha : f.ancestorOf v = some a) {fuel : Nat} (hfuel : position tree v < fuel) :
    Chases f v (f.climb fuel v) := by
  induction fuel generalizing v a with
  | zero => omega
  | succ fuel ih =>
    obtain ⟨hv, hav, hne, -⟩ := h.linked v a ha
    have hread : f.ancestor[v]? = some (some a) := ha ▸ h.getElem?_ancestor ht hv
    have hread' := h.getElem?_ancestor ht (ht.ancestor_mem hav hv)
    cases hb : f.ancestorOf a with
    | none =>
      rw [hb] at hread'
      simpa [climb, ha, hb] using Chases.stop hread hread'
    | some b =>
      rw [hb] at hread'
      have hlt := ht.ancestor_lt hav hne
      simpa [climb, ha, hb] using Chases.climb hread hread' (ih hb (by omega))

end Linked

/-! ## Every moment of the pass -/

theorem initialForest_eval (g : Digraph) (tree : List (Nat × Option Nat)) (v : Nat) :
    (g.initialForest tree).eval v = (v, g.initialForest tree) := by
  have hnone : (g.initialForest tree).ancestorOf v = none := by
    by_cases hv : v < g.size <;>
      simp [initialForest, ancestorOf, Array.getD_eq_getD_getElem?, hv]
  simp [Forest.eval, hnone]

/-- **Evaluation.**  Nothing is linked while the vertices are numbered, and the updates of the pass
make its forest.  At a moment of the pass, when the updates `done` have been made, let `ops` be the
same updates with any further calls of `eval` among them.  Then a vertex that is not linked
evaluates to itself.  A linked one evaluates to a vertex of the tree path below the first unlinked
vertex above it, one whose semidominator has the least number there; the loop of `compress` ends and
never looks up the ancestor of an undefined ancestor; and the further calls have changed neither the
number of any semidominator nor the one that an evaluation reports. -/
theorem evaluation_exact {g : Digraph} {entry : Nat} (hentry : entry < g.size)
    (preds : Array (List Nat)) {done ops : List Update}
    (hdone : done <+: g.passUpdates (g.spanningTree entry) preds (g.spanningTree entry))
    (hops : changes ops = changes done) :
    let tree := g.spanningTree entry
    let f := (g.initialForest tree).updates ops
    let f₀ := (g.initialForest tree).updates done
    (∀ numbered, numbered <+: tree → ∀ v,
        (g.initialForest numbered).eval v = (v, g.initialForest numbered)) ∧
      (g.dealtWith tree preds tree).forest =
        (g.initialForest tree).updates (g.passUpdates tree preds tree) ∧
      (∀ v ∈ tree.map (·.1), f.numberOf v = position tree v + 1) ∧
      (∀ v, v ∉ linkedBy done → f.eval v = (v, f)) ∧
      (∀ v ∈ linkedBy done, ∃ top, FirstUnlinked tree (linkedBy done) v top ∧
        OnPath tree top v (f.eval v).1 ∧
        ∀ x, OnPath tree top v x → f.key (f.eval v).1 ≤ f.key x) ∧
      (∀ v ∈ linkedBy done, Chases f v (f.climb f.ancestor.size v)) ∧
      ∀ v, f.key v = f₀.key v ∧ f.key (f.eval v).1 = f₀.key (f₀.eval v).1 := by
  intro tree f f₀
  have ht : IsSearchTree g entry tree := spanningTree_isSearchTree hentry
  obtain ⟨m, hmops, hmdone⟩ := follows_moment hentry hdone hops
  have hinit : Linked g tree tree.length (g.initialForest tree) :=
    (Progress.initial ht).known.linked
  have hstart : Alike g tree tree.length (g.initialForest tree) (g.initialForest tree) :=
    ⟨hinit, hinit, fun _ => rfl⟩
  -- both are like the forest without any calls
  have halike : Alike g tree m f f₀ := by
    have hleft := hmops.alike ht hstart
    rw [hops] at hleft
    exact hleft.trans (hmdone.alike ht hstart).symm
  have hlinked := halike.left
  have hmem : ∀ v, v ∈ linkedBy done ↔ v ∈ tree.map (·.1) ∧ m ≤ position tree v := by
    intro v
    rw [hmdone.mem_linkedBy.2 v]
    exact ⟨fun h => ⟨h.1, h.2.1⟩, fun h => ⟨h.1, h.2, position_lt_length h.1⟩⟩
  refine ⟨fun numbered _ => initialForest_eval g numbered, forest_dealtWith g tree preds tree,
    hlinked.number_eq, ?unlinked, ?linked, ?loop,
    fun v => ⟨halike.key_eq v, halike.report ht v⟩⟩
  case unlinked =>
    intro v hv
    exact hlinked.eval_of_not_linked fun h => hv ((hmem v).2 h)
  case linked =>
    intro v hv
    obtain ⟨hv, hmv⟩ := (hmem v).1 hv
    obtain ⟨top, htop, htopm, hpath⟩ := hlinked.exists_top ht hv hmv
    have hfirst : FirstUnlinked tree (linkedBy done) v top :=
      { above := htop
        unlinked := fun h => not_le.2 htopm ((hmem top).1 h).2
        path := fun x hx => (hmem x).2 ⟨ht.ancestor_mem hx.2.2 hv, hpath x hx⟩ }
    exact ⟨top, hfirst, hlinked.eval_onPath ht hv hmv htop htopm hpath⟩
  case loop =>
    intro v hv
    obtain ⟨hv, hmv⟩ := (hmem v).1 hv
    obtain ⟨a, ha⟩ := hlinked.exists_ancestor hv hmv
    have hfuel : position tree v < f.ancestor.size := by
      rw [hlinked.ancestor_size]
      exact Linked.position_lt_size ht hv
    exact hlinked.chases ht ha hfuel

/-- A path with an edge around its second vertex. -/
def bypass : Digraph := ofEdges 4 [(0, 1), (0, 2), (1, 2), (2, 3)]

theorem passUpdates_bypass :
    bypass.passUpdates (bypass.spanningTree 0) (bypass.predecessors [0, 1, 2, 3])
      (bypass.spanningTree 0) =
    [.scan 3 2, .link 3 2, .eval 3, .scan 2 1, .scan 2 0, .link 2 1, .scan 1 0, .link 1 0,
      .eval 2, .eval 1] := by
  cbv

/-- The moment when the path `0, 1, 2, 3` has just been linked, with one more call made before its
last link: from `3` everything up to the root is evaluated, over a path that the call has shortened
in one of the two forests. -/
theorem evaluation_bypass :
    let tree := bypass.spanningTree 0
    let preds := bypass.predecessors [0, 1, 2, 3]
    let done : List Update :=
      [.scan 3 2, .link 3 2, .eval 3, .scan 2 1, .scan 2 0, .link 2 1, .scan 1 0, .link 1 0]
    let ops : List Update :=
      [.scan 3 2, .link 3 2, .eval 3, .scan 2 1, .scan 2 0, .link 2 1, .eval 3, .scan 1 0,
        .link 1 0]
    let f := (bypass.initialForest tree).updates ops
    let f₀ := (bypass.initialForest tree).updates done
    0 < bypass.size ∧ done <+: bypass.passUpdates tree preds tree ∧ changes ops = changes done ∧
      f.eval 0 = (0, f) ∧
      (∃ top, FirstUnlinked tree (linkedBy done) 3 top ∧ OnPath tree top 3 (f.eval 3).1 ∧
        ∀ x, OnPath tree top 3 x → f.key (f.eval 3).1 ≤ f.key x) ∧
      Chases f 3 (f.climb f.ancestor.size 3) ∧
      f.key (f.eval 3).1 = f₀.key (f₀.eval 3).1 := by
  intro tree preds done ops f f₀
  have hsize : 0 < bypass.size := by decide
  have hdone : done <+: bypass.passUpdates tree preds tree := by
    rw [passUpdates_bypass]
    exact ⟨[.eval 2, .eval 1], rfl⟩
  have hops : changes ops = changes done := rfl
  obtain ⟨-, -, -, hunlinked, hlinked, hloop, hsame⟩ := evaluation_exact hsize preds hdone hops
  exact ⟨hsize, hdone, hops, hunlinked 0 (by decide), hlinked 3 (by decide), hloop 3 (by decide),
    (hsame 3).2⟩

end Unroller.Digraph
