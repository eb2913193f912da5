import Unroller.BitSet
import Unroller.Digraph.Dominators

/-!
# Natural loops and their nesting

An edge from `n` to `h` is a back edge when `h` dominates `n`.  All back edges to one header make
one *natural loop*: the header and every vertex that reaches the source of a back edge without
passing through the header.  Loops are numbered by the position of their header in reverse
postorder.

* `NaturalLoop.blocks` lists the header first and the other members in ascending order;
* `LoopForest.enclosing?` is the smallest other loop that contains a loop's header;
* `LoopForest.innermost?` is the smallest loop that contains a vertex;
* `LoopForest.depth` counts the enclosing loops.  The loops of a dominator tree of the same graph
  are nested; those found with an older tree can each contain the other's header.
-/

namespace Unroller

/-- One natural loop. -/
structure NaturalLoop where
  /-- The number of the loop. -/
  index : Nat
  /-- The vertex all back edges lead to. -/
  header : Nat
  /-- The members: the header, then the others in ascending order. -/
  blocks : List Nat
  /-- The members as a set. -/
  members : BitSet
  /-- The sources of the back edges, each once. -/
  sources : List Nat
deriving DecidableEq, Inhabited

namespace NaturalLoop

/-- The number of members. -/
def size (l : NaturalLoop) : Nat := l.blocks.length

/-- Whether `v` is a member. -/
def contains (l : NaturalLoop) (v : Nat) : Bool := l.members.contains v

/-- The smaller of two loops, the first one when they are of equal size. -/
def smaller (best : Option NaturalLoop) (l : NaturalLoop) : Option NaturalLoop :=
  match best with
  | some b => if b.size ≤ l.size then some b else some l
  | none => some l

/-- The smallest loop of a list, the first of several. -/
def smallest? (loops : List NaturalLoop) : Option NaturalLoop := loops.foldl smaller none

end NaturalLoop

/-- All natural loops of a graph, in the order of their numbers. -/
structure LoopForest where
  loops : List NaturalLoop
deriving DecidableEq, Inhabited

namespace LoopForest

/-- The number of loops. -/
def count (f : LoopForest) : Nat := f.loops.length

/-- The loop with the given header. -/
def withHeader? (f : LoopForest) (header : Nat) : Option NaturalLoop :=
  f.loops.find? fun l => l.header == header

/-- The smallest other loop that contains the header of `l`. -/
def enclosing? (f : LoopForest) (l : NaturalLoop) : Option NaturalLoop :=
  NaturalLoop.smallest? (f.loops.filter fun m => m.index != l.index && m.contains l.header)

/-- The smallest loop that contains `v`. -/
def innermost? (f : LoopForest) (v : Nat) : Option NaturalLoop :=
  NaturalLoop.smallest? (f.loops.filter fun l => l.contains v)

/-- Whether `l` is the enclosing loop of another one. -/
def hasInner (f : LoopForest) (l : NaturalLoop) : Bool :=
  f.loops.any fun m => (f.enclosing? m).any fun e => e.index == l.index

/-- One more than the number of enclosing loops, followed at most `fuel` times.  There is no answer
when that does not come to an end. -/
def depthFrom (f : LoopForest) : (fuel : Nat) → NaturalLoop → Option Nat
  | 0, _ => none
  | fuel + 1, l =>
    match f.enclosing? l with
    | some outer => (depthFrom f fuel outer).map (1 + ·)
    | none => some 1

/-- The nesting depth of a loop, one for outermost loops.  A chain of enclosing loops that is longer
than there are loops meets one of them again. -/
def depth (f : LoopForest) (l : NaturalLoop) : Option Nat := f.depthFrom (f.count + 1) l

end LoopForest

namespace Digraph

/-- The back edges between the listed vertices, as pairs of header and source. -/
def backEdges (g : Digraph) (tree : DominatorTree) (order : List Nat) : List (Nat × Nat) :=
  order.flatMap fun n => ((g.succs n).filter fun h => tree.dominates h n).map fun h => (h, n)

/-- The graph with all edges that leave a listed vertex turned round. -/
def reversed (g : Digraph) (vertices : List Nat) : Digraph :=
  let preds := g.predecessors vertices
  ⟨g.size, fun v => preds.getD v []⟩

/-- The vertices that reach a source in the reversed graph without passing through the header, the
header included. -/
def loopBody (reversed : Digraph) (header : Nat) (sources : List Nat) : Marks :=
  reversed.flood ((Marks.none reversed.size).mark header) sources

/-- The loop with the given number, header and back edge sources. -/
def naturalLoop (reversed : Digraph) (index header : Nat) (sources : List Nat) : NaturalLoop :=
  let body := loopBody reversed header sources
  let blocks := header :: (List.range reversed.size).filter fun v => v != header && body.isMarked v
  ⟨index, header, blocks, BitSet.ofList reversed.size blocks, sources⟩

/-- The natural loops of the vertices reachable from the entry of a dominator tree. -/
def loopForest (g : Digraph) (tree : DominatorTree) (entry : Nat) : LoopForest :=
  let order := g.reversePostorder entry
  let edges := g.backEdges tree order
  let turned := g.reversed order
  let headers := (order.map fun h =>
      (h, ((edges.filter fun e => e.1 == h).map fun e => e.2).eraseDups)).filter
    fun e => !e.2.isEmpty
  ⟨headers.zipIdx.map fun e => naturalLoop turned e.2 e.1.1 e.1.2⟩

end Digraph

end Unroller
