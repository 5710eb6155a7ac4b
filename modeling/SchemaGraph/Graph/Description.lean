import SchemaGraph.Graph
import SchemaGraph.Json

/-!
This module contains the description of a graph as a JSON value: the nodes that are reachable from a
start, in the order in which a depth-first walk reaches them first.
-/

namespace SchemaGraph

namespace Graph

def edges (g : Graph) : Nat :=
  g.nodes.foldl (fun count node => count + node.shape.children.length) 0

/--
Walk on from the handles of `pending`, the first one first, and collect the handles that are not
among those `seen`. The children of a handle come before all that was pending with it.
-/
def walk (g : Graph) : Nat → List Handle → List Handle → List Handle
  | 0, _, seen => seen.reverse
  | _ + 1, [], seen => seen.reverse
  | steps + 1, h :: pending, seen =>
    if h ∈ seen then g.walk steps pending seen
    else g.walk steps (g.children h ++ pending) (h :: seen)

/--
The handles that are reachable from `start`, in depth-first order. A handle is taken up once for the
start and once for each place inside a node at most, which bounds the number of steps.
-/
def reachable (g : Graph) (start : Handle) : List Handle :=
  g.walk (g.edges + 2) [start] []

def handleValue (h : Handle) : Json :=
  .string h.text

def slotValue {α : Type} (write : α → Json) : Slot α → Json
  | .pending => .null
  | .filled content => write content

def shapeFields : Shape → List (String × Json)
  | .primitive kind => [("kind", .string kind.text)]
  | .string => [("kind", .string "string")]
  | .enum cases => [("kind", .string "enum"), ("cases", .array (cases.map .string))]
  | .array items => [("kind", .string "array"), ("items", handleValue items)]
  | .map values => [("kind", .string "map"), ("values", slotValue handleValue values)]
  | .record fields =>
    let write (fields : Fields) : Json :=
      .object (fields.map fun field => (field.1, handleValue field.2))
    [("kind", .string "class"), ("properties", slotValue write fields)]
  | .union members => [("kind", .string "union"), ("members", .array (members.map handleValue))]
  | .nullable inner => [("kind", .string "nullable"), ("inner", handleValue inner)]

def hintFields : Option NameHint → List (String × Json)
  | none => []
  | some hint =>
    ("name", .string hint.text) :: if hint.isInferred then [("inferred", .bool true)] else []

def nodeDescription (g : Graph) (h : Handle) : Json :=
  match g.node? h with
  | none => .object [("kind", .string "missing")]
  | some node => .object (shapeFields node.shape ++ hintFields node.hint)

def description (g : Graph) (start : Handle) : Json :=
  let types := (g.reachable start).map fun h => (h.text, g.nodeDescription h)
  .object [("root", handleValue start), ("types", .object types)]

end Graph

end SchemaGraph
