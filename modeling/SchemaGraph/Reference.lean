import SchemaGraph.Fault
import SchemaGraph.Json.Printer
import SchemaGraph.Text.Slashed

/-!
This module contains references. A reference is written as the steps `#` and `definitions/name`
between slashes, and it is resolved by walking from a schema along steps of any kind. The walk keeps
account of the location that it has come to, so that a resolved schema always has its address.
-/

namespace SchemaGraph

structure Reference where
  target : Location
  name : String
  deriving DecidableEq

namespace Reference

def steps? : List (List Char) → Option (List Step)
  | [] => some []
  | part :: rest =>
    if part = ['#'] then (steps? rest).map (.root :: ·)
    else if part = "definitions".toList then
      match rest with
      | [] => none
      | name :: rest =>
        if name = [] then none
        else (steps? rest).map (.definition (String.ofList name) :: ·)
    else none

def nameOf : Step → String
  | .definition name => name
  | _ => "Root"

def ofText (text : String) : Except Fault Reference :=
  match steps? (slashParts text.toList) with
  | none => .error (.malformedReference text)
  | some steps =>
    match steps.getLast? with
    | none => .error (.malformedReference text)
    | some last => .ok ⟨⟨steps⟩, nameOf last⟩

end Reference

structure Place where
  node : Json
  loc : Location

namespace Place

def alternative (place : Place) (keyword : Keyword) (index : Nat) : Except Fault Json :=
  let elements? := (place.node.field? keyword.text).bind Json.array?
  match elements?.bind fun elements => elements[index]? with
  | some node => .ok node
  | none => .error (.noAlternative keyword index place.loc)

def inner (place : Place) (keyword : Keyword) : Except Fault Json :=
  match place.node.field? keyword.text with
  | some (.object fields) => .ok (.object fields)
  | _ => .error (.badKeyword keyword place.loc)

def definition (place : Place) (name : String) : Except Fault Json :=
  match (place.node.field? Keyword.definitions.text).bind (fun group => group.field? name) with
  | some (.object fields) => .ok (.object fields)
  | _ => .error (.noDefinition name place.loc)

def property (place : Place) (name : String) : Except Fault Json :=
  match (place.node.field? Keyword.properties.text).bind (fun group => group.field? name) with
  | some node => .ok node
  | none => .error (.noProperty name place.loc)

def inside (place : Place) (document : Json) : Step → Except Fault Json
  | .root => .ok document
  | .definition name => place.definition name
  | .oneOf index => place.alternative .oneOf index
  | .anyOf index => place.alternative .anyOf index
  | .property name => place.property name
  | .additionalProperties => place.inner .additionalProperties
  | .items => place.inner .items

def step (document : Json) (place : Place) : Step → Except Fault Place
  | .root => .ok ⟨document, .root⟩
  | step => do
    let node ← place.inside document step
    return ⟨node, place.loc.child step⟩

def walk (document : Json) : List Step → Place → Except Fault Place
  | [], place => .ok place
  | s :: rest, place => do
    let place ← place.step document s
    walk document rest place

def resolve (document : Json) (place : Place) (target : Location) : Except Fault Place :=
  walk document target.steps place

@[simp]
theorem walk_nil (document : Json) (place : Place) : walk document [] place = .ok place := rfl

@[simp]
theorem walk_cons (document : Json) (s : Step) (rest : List Step) (place : Place) :
    walk document (s :: rest) place = (place.step document s).bind (walk document rest) := rfl

theorem walk_append (document : Json) (xs ys : List Step) (place : Place) :
    walk document (xs ++ ys) place = (walk document xs place).bind (walk document ys) := by
  induction xs generalizing place with
  | nil => rfl
  | cons s rest ih =>
    simp only [List.cons_append, walk_cons]
    cases place.step document s with
    | error fault => rfl
    | ok next => exact ih next

end Place

end SchemaGraph
