/-!
# Finite directed graphs, walks and dominance

A `Digraph` has the vertices below `size` and a list of successors for each; successors outside the
range are allowed and lead nowhere.  Repeated successors and self loops are allowed too.

* `Walk g a b vs` says that `vs` lists the vertices of a walk from `a` to `b`, both included;
* `Reaches` and `Dominates` are the usual notions in terms of walks.
-/

namespace Unroller

/-- A directed graph on the vertices below `size`, with ordered successor lists. -/
structure Digraph where
  /-- The number of vertices. -/
  size : Nat
  /-- The successors of a vertex, in order, repetitions kept. -/
  succs : Nat → List Nat

namespace Digraph

variable (g : Digraph)

/-- There is an edge from `a` to `b`, and both are vertices. -/
def Edge (a b : Nat) : Prop := a < g.size ∧ b < g.size ∧ b ∈ g.succs a

/-- `vs` lists the vertices of a walk from `a` to `b`, in order. -/
inductive Walk : Nat → Nat → List Nat → Prop where
  | single {a : Nat} (ha : a < g.size) : Walk a a [a]
  | cons {a b c : Nat} {vs : List Nat} (edge : g.Edge a b) (walk : Walk b c vs) :
    Walk a c (a :: vs)

/-- There is a walk from `a` to `b`. -/
def Reaches (a b : Nat) : Prop := ∃ vs, g.Walk a b vs

/-- `b` is reachable from `entry` and every walk from `entry` to `b` passes through `a`. -/
def Dominates (entry a b : Nat) : Prop :=
  g.Reaches entry b ∧ ∀ vs, g.Walk entry b vs → a ∈ vs

/-- The graph on the vertices below `size` whose edges are the listed pairs, in list order. -/
def ofEdges (size : Nat) (edges : List (Nat × Nat)) : Digraph where
  size := size
  succs v := (edges.filter fun e => e.1 == v).map fun e => e.2

/-- The edges leaving a list of vertices, in order, successors outside the range left out. -/
def edgesFrom (vertices : List Nat) : List (Nat × Nat) :=
  vertices.flatMap fun v => ((g.succs v).filter fun w => decide (w < g.size)).map fun w => (v, w)

end Digraph

end Unroller
