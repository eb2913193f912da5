import Unroller.Graph.Flow
import Unroller.Text.Dot

/-!
# Graphs as text and as DOT pictures

A node is written as `@n = Kind(payload, operands) -> targets`, a block as a heading followed by its
phis and nodes.  `render` writes the whole graph that way; `toDot` puts the same lines into one box
per live block and draws an edge per successor slot.  Writing stops at a listed node that does not
exist.
-/

namespace Unroller

/-- The targets a payload names, as written after a node. -/
def Graph.targetsText (g : Graph) : Payload → String
  | .jump target => " -> " ++ blockText target
  | .branch record =>
    match g.branches[record]? with
    | some r => " -> T:" ++ blockText r.taken.block ++ " F:" ++ blockText r.notTaken.block
    | none => ""
  | .switch record =>
    match g.switches[record]? with
    | some r =>
      let cases := r.cases.map fun c =>
        " " ++ toString c.value.toInt ++ ":" ++ blockText c.target.block
      " ->" ++ String.join cases ++ " default:" ++ blockText r.fallThrough.block
    | none => ""
  | _ => ""

/-- The part of a payload written among the operands. -/
def Payload.argumentText : Payload → List String
  | .slot l => [localText l]
  | .constant value => [value.render]
  | .property id => ["id" ++ toString id]
  | _ => []

namespace Graph

/-- The operands of a node as written; a variadic range shows its empty edges. -/
def operandTexts (g : Graph) : Children → List String
  | .fixed a b c => ([a, b, c].filter Edge.isSet).map Edge.render
  | .variadic first count => (g.varArgRange first count).map Edge.render

/-- The line of a node. -/
def nodeLine (g : Graph) (n : NodeId) : Except Error String := do
  let node ← g.node n
  let parts := node.payload.argumentText ++ g.operandTexts node.children
  return nodeText n ++ " = " ++ node.kind.name
    ++ (if parts.isEmpty then "" else "(" ++ ", ".intercalate parts ++ ")")
    ++ g.targetsText node.payload

/-- The heading of a block. -/
def blockHeading (block : Block) : String :=
  "block " ++ blockText block.index ++ " (exec " ++ Decimal.text block.executionCount ++ ", preds ["
    ++ ", ".intercalate (block.preds.map blockText) ++ "])"
    ++ (if block.flags.setNames.isEmpty then "" else " " ++ block.flags.render)

/-- The lines of a block. -/
def blockLines (g : Graph) (block : Block) : Except Error (List String) := do
  let lines ← (block.phis ++ block.nodes).mapM g.nodeLine
  return blockHeading block :: lines.map ("  " ++ ·)

/-- The first line of a dump. -/
def heading (g : Graph) : String :=
  "graph " ++ (if g.name.isEmpty then "<anonymous>" else g.name)
    ++ (match g.function with
      | some function => " [" ++ function.render ++ "]"
      | none => "")
    ++ " (" ++ g.form.name ++ ", " ++ toString g.locals ++ " locals)"

/-- The whole graph, each line with a line end. -/
def render (g : Graph) : Except Error String := do
  let lines ← g.liveBlocks.mapM fun e => g.blockLines e.2
  return String.join ((g.heading :: lines.flatten).map (· ++ "\n"))

/-- The name of a block in a picture. -/
def dotName (b : BlockId) : String := "bb" ++ toString b

/-- The box of a block. -/
def dotBox (g : Graph) (block : Block) : Except Error String := do
  let lines ← g.blockLines block
  return "  " ++ dotName block.index ++ " [label=\"" ++ Text.Dot.labelString lines ++ "\""
    ++ (if block.flags.reachable then "" else ", style=dashed") ++ "];\n"

/-- The label of the edge of a successor slot: only two-way blocks have them. -/
def dotEdgeLabel (count slot : Nat) : String :=
  if count = 2 then (if slot = 0 then " [label=\"T\"]" else " [label=\"F\"]") else ""

/-- The edges of a block. -/
def dotEdges (g : Graph) (b : BlockId) : String :=
  let count := g.successorCount b
  String.join ((List.range count).filterMap fun slot =>
    (g.successor? b slot).map fun target =>
      "  " ++ dotName b ++ " -> " ++ dotName target ++ dotEdgeLabel count slot ++ ";\n")

/-- The graph as a DOT picture. -/
def toDot (g : Graph) : Except Error String := do
  let boxes ← g.liveBlocks.mapM fun e => g.dotBox e.2
  return "digraph \"" ++ Text.Dot.escapeString (if g.name.isEmpty then "graph" else g.name)
    ++ "\" \x7b\n"
    ++ "  node [shape=box, fontname=\"monospace\"];\n"
    ++ String.join boxes
    ++ String.join (g.liveIds.map g.dotEdges)
    ++ "\x7d\n"

end Graph

end Unroller
