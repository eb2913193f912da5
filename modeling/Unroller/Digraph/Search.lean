import Unroller.Digraph.Basic

/-!
# Searching a digraph

All searches keep an array of marks, one per vertex, and a stack.  They differ in when a vertex is
marked and in what they report.

* `pushOrder` marks a vertex when it goes onto the stack and lists the vertices as they come off it;
* `reversePostorder` marks a vertex when it is entered and lists the vertices by the time they are
  left, last first; `postorder` lists them the other way round;
* `spanningTree` marks a vertex when it is entered and lists the vertices in that order, each with
  the vertex it was entered from;
* `flood` only marks what a list of vertices reaches.

Each step either marks a vertex or shortens the stack, so the pair of the number of unmarked
vertices and the length of the stack falls lexicographically.
-/

namespace Unroller.Digraph

/-- One mark per vertex. -/
abbrev Marks := Array Bool

namespace Marks

/-- No vertex of a graph of `size` vertices is marked. -/
def none (size : Nat) : Marks := Array.replicate size false

/-- `v` is a vertex and not marked. -/
def isFresh (marks : Marks) (v : Nat) : Bool := marks[v]? == some false

/-- `v` is a vertex and marked. -/
def isMarked (marks : Marks) (v : Nat) : Bool := marks[v]? == some true

/-- Marks `v`. -/
def mark (marks : Marks) (v : Nat) : Marks := marks.setIfInBounds v true

/-- The number of unmarked vertices. -/
def unmarked (marks : Marks) : Nat := marks.toList.count false

/-- Setting a `false` entry to `true` leaves one `false` less. -/
theorem count_set_add_one {l : List Bool} {v : Nat} (h : l[v]? = some false) :
    (l.set v true).count false + 1 = l.count false := by
  induction l generalizing v with
  | nil => simp at h
  | cons b l ih =>
    cases v with
    | zero => simp at h; simp [h]
    | succ v =>
      have := ih (by simpa using h)
      cases b <;> simp [List.set_cons_succ] <;> omega

/-- Marking a fresh vertex leaves one unmarked vertex less. -/
theorem unmarked_mark {marks : Marks} {v : Nat} (h : marks.isFresh v = true) :
    (marks.mark v).unmarked + 1 = marks.unmarked := by
  have h : marks.toList[v]? = some false := by simpa [isFresh] using h
  simpa [unmarked, mark] using count_set_add_one h

end Marks

/-! ## Marking when pushed -/

/-- Marks the fresh vertices of a list, last first, and puts them onto a stack. -/
def pushFresh (marks : Marks) (stack : List Nat) (vertices : List Nat) : Marks × List Nat :=
  vertices.foldr
    (fun v s => if s.1.isFresh v then (s.1.mark v, v :: s.2) else s) (marks, stack)

/-- Each vertex that goes onto the stack is one unmarked vertex less. -/
theorem pushFresh_measure (marks : Marks) (stack vertices : List Nat) :
    (pushFresh marks stack vertices).1.unmarked + (pushFresh marks stack vertices).2.length =
      marks.unmarked + stack.length := by
  induction vertices with
  | nil => rfl
  | cons v vs ih =>
    simp only [pushFresh, List.foldr_cons] at ih ⊢
    split
    · rename_i h
      have := Marks.unmarked_mark h
      simp only [List.length_cons]
      omega
    · exact ih

/-- The vertices that come off the stack, and all that they push. -/
def pushOrderFrom (g : Digraph) (marks : Marks) : List Nat → List Nat
  | [] => []
  | v :: stack =>
    let next := pushFresh marks stack (g.succs v)
    v :: pushOrderFrom g next.1 next.2
termination_by stack => marks.unmarked + stack.length
decreasing_by
  have := pushFresh_measure marks stack (g.succs v)
  simp only [List.length_cons]
  omega

/-- The vertices reachable from `start`, each once, in the order in which they come off a stack on
which they are marked; nothing when `start` is not a vertex. -/
def pushOrder (g : Digraph) (start : Nat) : List Nat :=
  if start < g.size then pushOrderFrom g ((Marks.none g.size).mark start) [start] else []

/-! ## Marking when entered -/

/-- What is left to do in a depth-first search. -/
inductive Task where
  /-- Enter a vertex, unless it is marked by then. -/
  | enter (v : Nat)
  /-- Leave a vertex all of whose successors have been seen to. -/
  | leave (v : Nat)
deriving DecidableEq

/-- Runs the tasks of a depth-first search; `left` lists the vertices left so far, last first. -/
def leaveOrderFrom (g : Digraph) (marks : Marks) (left : List Nat) : List Task → List Nat
  | [] => left
  | .leave v :: tasks => leaveOrderFrom g marks (v :: left) tasks
  | .enter v :: tasks =>
    if marks.isFresh v then
      let marked := marks.mark v
      leaveOrderFrom g marked left
        (((g.succs v).filter marked.isFresh).map .enter ++ .leave v :: tasks)
    else leaveOrderFrom g marks left tasks
termination_by tasks => (marks.unmarked, tasks.length)
decreasing_by
  · exact Prod.Lex.right _ (by simp)
  · have := Marks.unmarked_mark (by assumption)
    exact Prod.Lex.left _ _ (by omega)
  · exact Prod.Lex.right _ (by simp)

/-- The vertices reachable from `start`, the last one left first. -/
def reversePostorder (g : Digraph) (start : Nat) : List Nat :=
  leaveOrderFrom g (Marks.none g.size) [] [.enter start]

/-- The vertices reachable from `start` in the order in which they are left. -/
def postorder (g : Digraph) (start : Nat) : List Nat := (reversePostorder g start).reverse

/-- Runs a depth-first search from a stack of vertices, each with the vertex it was found from;
`tree` lists the vertices entered so far, last first. -/
def spanningTreeFrom (g : Digraph) (marks : Marks) (tree : List (Nat × Option Nat)) :
    List (Nat × Option Nat) → List (Nat × Option Nat)
  | [] => tree.reverse
  | (v, parent) :: stack =>
    if marks.isFresh v then
      let marked := marks.mark v
      spanningTreeFrom g marked ((v, parent) :: tree)
        (((g.succs v).filter marked.isFresh).map (fun w => (w, some v)) ++ stack)
    else spanningTreeFrom g marks tree stack
termination_by stack => (marks.unmarked, stack.length)
decreasing_by
  · have := Marks.unmarked_mark (by assumption)
    exact Prod.Lex.left _ _ (by omega)
  · exact Prod.Lex.right _ (by simp)

/-- The vertices reachable from `start` in the order in which a depth-first search enters them, each
with its parent in the search tree. -/
def spanningTree (g : Digraph) (start : Nat) : List (Nat × Option Nat) :=
  spanningTreeFrom g (Marks.none g.size) [] [(start, none)]

/-! ## Marking all that is reached -/

/-- Marks every vertex of the stack and everything they reach over vertices not yet marked. -/
def flood (g : Digraph) (marks : Marks) : List Nat → Marks
  | [] => marks
  | v :: stack =>
    if marks.isFresh v then flood g (marks.mark v) (g.succs v ++ stack)
    else flood g marks stack
termination_by stack => (marks.unmarked, stack.length)
decreasing_by
  · have := Marks.unmarked_mark (by assumption)
    exact Prod.Lex.left _ _ (by omega)
  · exact Prod.Lex.right _ (by simp)

end Unroller.Digraph
