import Unroller.Digraph.Search

/-!
# The dominator tree

The immediate dominators of all vertices reachable from an entry, by way of semidominators.

1. A depth-first search numbers the vertices and fixes a spanning tree.
2. From the last numbered vertex to the first but one, each vertex gets its *semidominator*, the
   vertex of least number from which it can be reached over vertices of larger number, and is then
   linked below its tree parent.  `Forest.eval` finds the least semidominator on the linked part of
   a tree path; it shortens the paths it walks, so later calls are cheap.
3. A vertex waits in the bucket of its semidominator until the path between them is linked; then its
   immediate dominator, or a vertex with the same one, is known.
4. A last pass in number order resolves the latter case.

`DominatorTree.dominates` and `depth` walk up the finished tree.
-/

namespace Unroller

/-- The immediate dominators of the vertices reachable from an entry. -/
structure DominatorTree where
  /-- The vertex everything is reached from. -/
  entry : Nat
  /-- The immediate dominator per vertex: the entry's is itself, unreachable vertices have none. -/
  idom : Array (Option Nat)
deriving DecidableEq, Inhabited

namespace DominatorTree

/-- The number of vertices of the graph that the tree was made for. -/
def size (t : DominatorTree) : Nat := t.idom.size

/-- The recorded dominator of a vertex. -/
def parent? (t : DominatorTree) (v : Nat) : Option Nat := t.idom.getD v none

/-- Whether `v` was reached from the entry. -/
def isReachable (t : DominatorTree) (v : Nat) : Bool := (t.parent? v).isSome

/-- The immediate dominator of a reachable vertex other than the entry. -/
def immediateDominator? (t : DominatorTree) (v : Nat) : Option Nat :=
  if v = t.entry then none else t.parent? v

/-- The first `fuel` vertices above `v` in the tree, nearest first, the entry last. -/
def above (t : DominatorTree) : (fuel : Nat) → (v : Nat) → List Nat
  | 0, _ => []
  | fuel + 1, v =>
    match t.immediateDominator? v with
    | some d => d :: above t fuel d
    | none => []

/-- The strict dominators of `v`, nearest first. -/
def strictDominators (t : DominatorTree) (v : Nat) : List Nat := t.above t.size v

/-- Whether `a` dominates `b`; unreachable vertices take no part. -/
def dominates (t : DominatorTree) (a b : Nat) : Bool :=
  t.isReachable a && t.isReachable b && (a == b || (t.strictDominators b).contains a)

/-- Whether `a` dominates `b` and is not `b`. -/
def strictlyDominates (t : DominatorTree) (a b : Nat) : Bool := a != b && t.dominates a b

/-- The number of tree edges between the entry and a reachable vertex. -/
def depth? (t : DominatorTree) (v : Nat) : Option Nat :=
  if t.isReachable v then some (t.strictDominators v).length else none

end DominatorTree

namespace Digraph

/-! ## The forest of linked vertices -/

/-- The linked part of the spanning tree, with shortened paths. -/
structure Forest where
  /-- The position of each vertex in search order, from one; zero when it was not reached. -/
  number : Array Nat
  /-- The semidominator found so far; at first each vertex itself. -/
  semi : Array Nat
  /-- A vertex above each linked vertex. -/
  ancestor : Array (Option Nat)
  /-- The vertex of least semidominator on the path that `ancestor` skips. -/
  best : Array Nat
deriving Inhabited

namespace Forest

/-- The semidominator of `v`. -/
def semiOf (f : Forest) (v : Nat) : Nat := f.semi.getD v v

/-- The vertex recorded as best for `v`. -/
def bestOf (f : Forest) (v : Nat) : Nat := f.best.getD v v

/-- The recorded ancestor of `v`, if it is linked. -/
def ancestorOf (f : Forest) (v : Nat) : Option Nat := f.ancestor.getD v none

/-- The number of `v`. -/
def numberOf (f : Forest) (v : Nat) : Nat := f.number.getD v 0

/-- The number of the semidominator of `v`. -/
def key (f : Forest) (v : Nat) : Nat := f.numberOf (f.semiOf v)

/-- The vertices from `v` upward whose recorded ancestor is linked itself, nearest first. -/
def climb (f : Forest) : (fuel : Nat) → (v : Nat) → List Nat
  | 0, _ => []
  | fuel + 1, v =>
    match f.ancestorOf v with
    | none => []
    | some a =>
      match f.ancestorOf a with
      | none => []
      | some _ => v :: climb f fuel a

/-- Lets `v` skip its recorded ancestor, keeping the better of the two best vertices. -/
def shorten (f : Forest) (v : Nat) : Forest :=
  match f.ancestorOf v with
  | none => f
  | some a =>
    let best :=
      if f.key (f.bestOf a) < f.key (f.bestOf v) then f.best.setIfInBounds v (f.bestOf a)
      else f.best
    { f with best := best, ancestor := f.ancestor.setIfInBounds v (f.ancestorOf a) }

/-- Shortens the path above `v`, its far end first. -/
def compress (f : Forest) (v : Nat) : Forest :=
  (f.climb f.ancestor.size v).foldr (fun w f => f.shorten w) f

/-- A vertex of least semidominator on the linked path above `v`, or `v` when it is not linked. -/
def eval (f : Forest) (v : Nat) : Nat × Forest :=
  match f.ancestorOf v with
  | none => (v, f)
  | some _ =>
    let f := f.compress v
    (f.bestOf v, f)

/-- Lowers the semidominator of `w` to that of `u` when the latter has the smaller number. -/
def lower (f : Forest) (w u : Nat) : Forest :=
  if f.key u < f.key w then { f with semi := f.semi.setIfInBounds w (f.semiOf u) } else f

/-- Links `w` below `parent`. -/
def link (f : Forest) (w : Nat) (parent : Nat) : Forest :=
  { f with ancestor := f.ancestor.setIfInBounds w (some parent) }

end Forest

/-! ## The computation -/

/-- The state between two vertices. -/
structure DominatorState where
  forest : Forest
  /-- The vertices waiting for each semidominator. -/
  bucket : Array (List Nat)
  /-- The dominators known so far. -/
  idom : Array (Option Nat)
deriving Inhabited

/-- The semidominator of `w` from its predecessors. -/
def semidominator (f : Forest) (w : Nat) (preds : List Nat) : Forest :=
  preds.foldl (fun f v => let e := f.eval v; e.2.lower w e.1) f

/-- Gives each waiting vertex `parent`, or the vertex that has the same dominator. -/
def settle (parent : Nat) (s : DominatorState) (v : Nat) : DominatorState :=
  let e := s.forest.eval v
  let d := if e.2.semiOf e.1 = e.2.semiOf v then parent else e.1
  { s with forest := e.2, idom := s.idom.setIfInBounds v (some d) }

/-- One vertex with its tree parent. -/
def dominatorStep (preds : Array (List Nat)) (s : DominatorState) (w parent : Nat) :
    DominatorState :=
  let forest := semidominator s.forest w (preds.getD w [])
  let bucket := s.bucket.modify (forest.semiOf w) fun waiting => waiting ++ [w]
  let forest := forest.link w parent
  let waiting := bucket.getD parent []
  let bucket := bucket.setIfInBounds parent []
  waiting.foldl (settle parent) { forest := forest, bucket := bucket, idom := s.idom }

/-- Resolves the dominator of `w` when it is not the semidominator. -/
def resolve (semi : Array Nat) (idom : Array (Option Nat)) (w : Nat) : Array (Option Nat) :=
  match idom.getD w none with
  | none => idom
  | some d => if d = semi.getD w w then idom else idom.setIfInBounds w (idom.getD d none)

/-- The predecessors of each vertex among the listed ones. -/
def predecessors (g : Digraph) (vertices : List Nat) : Array (List Nat) :=
  (g.edgesFrom vertices).foldl (fun preds e => preds.modify e.2 (e.1 :: ·))
    (Array.replicate g.size [])

/-- The numbers of the vertices of a spanning tree, from one. -/
def numbering (g : Digraph) (tree : List (Nat × Option Nat)) : Array Nat :=
  tree.zipIdx.foldl (fun number e => number.setIfInBounds e.1.1 (e.2 + 1))
    (Array.replicate g.size 0)

/-- The forest in which nothing is linked. -/
def initialForest (g : Digraph) (tree : List (Nat × Option Nat)) : Forest where
  number := g.numbering tree
  semi := Array.range g.size
  ancestor := Array.replicate g.size none
  best := Array.range g.size

/-- The state before the last numbered vertex. -/
def initialState (g : Digraph) (tree : List (Nat × Option Nat)) : DominatorState where
  forest := g.initialForest tree
  bucket := Array.replicate g.size []
  idom := Array.replicate g.size none

/-- The dominator tree of the vertices reachable from `entry`. -/
def dominatorTree (g : Digraph) (entry : Nat) : DominatorTree :=
  let tree := g.spanningTree entry
  let preds := g.predecessors (tree.map (·.1))
  let linked := tree.foldr
    (fun (e : Nat × Option Nat) s =>
      match e.2 with
      | some parent => dominatorStep preds s e.1 parent
      | none => s)
    (g.initialState tree)
  let resolved := (tree.map (·.1)).foldl (resolve linked.forest.semi) linked.idom
  ⟨entry, resolved.setIfInBounds entry (some entry)⟩

end Digraph

end Unroller
