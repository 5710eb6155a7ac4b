import SchemaGraph.Graph

/-!
This module contains requests to a graph as data, so that a history of a graph is a list of them.
-/

namespace SchemaGraph

inductive Request where
  | primitive (kind : Primitive)
  | string (hint : NameHint)
  | enum (hint : NameHint) (cases : List String)
  | array (items : Handle)
  | map (values : Handle)
  | openMap
  | fillMap (target values : Handle)
  | openRecord (hint : NameHint)
  | record (hint : NameHint) (fields : List (String × Handle))
  | fillRecord (target : Handle) (fields : List (String × Handle))
  | union (hint : NameHint) (members : List Handle)
  | nullable (inner : Handle) (hint : NameHint)

namespace Graph

def perform (g : Graph) : Request → Except Fault Handle × Graph
  | .primitive kind => made (g.addPrimitive kind)
  | .string hint => made (g.addString hint)
  | .enum hint cases => made (g.addEnum hint cases)
  | .array items => made (g.addArray items)
  | .map values => made (g.addMap values)
  | .openMap => made g.addOpenMap
  | .fillMap target values => filled target (g.fillMap target values)
  | .openRecord hint => made (g.addRecord hint .pending)
  | .record hint fields => made (g.addRecord hint (.filled (Entries.ofList fields)))
  | .fillRecord target fields => filled target (g.fillRecord target (Entries.ofList fields))
  | .union hint members => made (g.addUnion hint members)
  | .nullable inner hint => made (g.addNullable inner hint)
where
  made (result : Handle × Graph) : Except Fault Handle × Graph :=
    (.ok result.1, result.2)
  filled (target : Handle) (result : Except Fault Graph) : Except Fault Handle × Graph :=
    match result with
    | .ok g' => (.ok target, g')
    | .error fault => (.error fault, g)

def after (g : Graph) (requests : List Request) : Graph :=
  requests.foldl (fun g request => (g.perform request).2) g

@[simp]
theorem after_nil (g : Graph) : g.after [] = g := rfl

@[simp]
theorem after_cons (g : Graph) (request : Request) (requests : List Request) :
    g.after (request :: requests) = (g.perform request).2.after requests := rfl

theorem after_append (g : Graph) (xs ys : List Request) :
    g.after (xs ++ ys) = (g.after xs).after ys := by
  simp [after]

end Graph

end SchemaGraph
