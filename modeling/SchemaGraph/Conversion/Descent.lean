import SchemaGraph.Conversion.Unification
import SchemaGraph.Reference
import SchemaGraph.Schema

/-!
This module contains the descent through a schema document. The schema at a location is converted
once and its type is recorded, so that every further request gets the recorded type. A record and an
open map are recorded before what is inside them is converted, which ends most cycles. A location
that is asked for again while it is under way is converted a second time, because that usually meets
a record or a map which the first time has recorded, and asking a third time is an unresolvable
recursion.
-/

namespace SchemaGraph

namespace Descent

open Effect

abbrev Convert := Json → Location → NameHint → Effect Handle

def intoFields (convert : Convert) (required : List String) (loc : Location) :
    List (String × Json) → Effect Fields
  | [] => pure []
  | (name, node) :: rest => do
    let hint := NameHint.inferred name
    let declared ← convert node (loc.child (.property name)) hint
    let type ←
      if name ∈ required then pure declared else build fun g => g.addNullable declared hint
    let fields ← intoFields convert required loc rest
    return (name, type) :: fields

def intoRecord (convert : Convert) (schema : Schema) (properties : List (String × Json))
    (loc : Location) (hint : NameHint) : Effect Handle := do
  let required ← check (schema.required loc)
  let h ← build fun g => g.addRecord hint .pending
  record loc h
  let fields ← intoFields convert required loc properties
  fill fun g => g.fillRecord h fields
  return h

def intoMap (convert : Convert) (values : Json) (loc : Location) (hint : NameHint) :
    Effect Handle := do
  let h ← build fun g => g.addOpenMap
  record loc h
  let valueType ← convert values (loc.child .additionalProperties) hint.singular
  fill fun g => g.fillMap h valueType
  return h

def intoObject (convert : Convert) (schema : Schema) (loc : Location) (hint : NameHint) :
    Effect Handle := do
  match ← check (schema.properties? loc) with
  | some properties => intoRecord convert schema properties loc hint
  | none =>
    match schema.additional? with
    | some .forbidden => build fun g => g.addRecord hint (.filled [])
    | some (.schema values) => intoMap convert values loc hint
    | _ => do
      let any ← build fun g => g.addPrimitive .any
      build fun g => g.addMap any

def intoArray (convert : Convert) (schema : Schema) (loc : Location) (hint : NameHint) :
    Effect Handle := do
  let items ← match ← check (schema.items? loc) with
    | some node => convert node (loc.child .items) hint.singular
    | none => build fun g => g.addPrimitive .any
  build fun g => g.addArray items

def intoString (schema : Schema) (loc : Location) (hint : NameHint) : Effect Handle :=
  match schema.format? with
  | none => build fun g => g.addString hint
  | some "date" => build fun g => g.addPrimitive .date
  | some "time" => build fun g => g.addPrimitive .time
  | some "date-time" => build fun g => g.addPrimitive .dateTime
  | some format => fail (.unknownFormat format loc)

def intoNamed (convert : Convert) (schema : Schema) (loc : Location) (hint : NameHint)
    (name : String) : Effect Handle :=
  match name with
  | "object" => intoObject convert schema loc hint
  | "array" => intoArray convert schema loc hint
  | "string" => intoString schema loc hint
  | "boolean" => build fun g => g.addPrimitive .bool
  | "null" => build fun g => g.addPrimitive .null
  | "integer" => build fun g => g.addPrimitive .integer
  | "number" => build fun g => g.addPrimitive .double
  | name => fail (.unknownType name loc)

def intoNames (convert : Convert) (schema : Schema) (loc : Location) (hint : NameHint)
    (names : List String) : Effect Handle := do
  match distinct names with
  | [name] => intoNamed convert schema loc hint name
  | names => do
    let types ← collect (names.map fun name => intoNamed convert schema loc hint name)
    Unification.unify types hint loc

def intoAlternatives (convert : Convert) (step : Nat → Step) (loc : Location) (hint : NameHint) :
    Nat → List Json → Effect (List Handle)
  | _, [] => pure []
  | index, node :: rest => do
    let type ← convert node (loc.child (step index)) hint.weaken
    let types ← intoAlternatives convert step loc hint (index + 1) rest
    return type :: types

def intoChoice (convert : Convert) (step : Nat → Step) (loc : Location) (hint : NameHint)
    (alternatives : List Json) : Effect Handle := do
  let types ← intoAlternatives convert step loc hint 0 alternatives
  Unification.unify types hint loc

/--
The alternatives of a schema and the steps that lead to them. `oneOf` goes before `anyOf`.
-/
def alternatives? (schema : Schema) (loc : Location) :
    Except Fault (Option ((Nat → Step) × List Json)) := do
  match ← schema.oneOf? loc with
  | some nodes => return some (.oneOf, nodes)
  | none =>
    match ← schema.anyOf? loc with
    | some nodes => return some (.anyOf, nodes)
    | none => return none

def intoReference (convert : Convert) (text : String) (place : Place) (hint : NameHint) :
    Effect Handle := do
  let reference ← check (Reference.ofText text)
  let target ← check (place.resolve (← state).document reference.target)
  convert target.node target.loc (if hint.isInferred then .explicit reference.name else hint)

def intoSchema (convert : Convert) (node : Json) (loc : Location) (hint : NameHint) :
    Effect Handle := do
  let schema ← check (Schema.ofJson node loc)
  let hint := (schema.title?.map NameHint.explicit).getD hint
  match ← check schema.reference? with
  | some text => intoReference convert text ⟨node, loc⟩ hint
  | none =>
    match ← check (schema.cases? loc) with
    | some cases => build fun g => g.addEnum hint cases
    | none =>
      match ← check (schema.types? loc) with
      | some names => intoNames convert schema loc hint names
      | none =>
        match ← check (alternatives? schema loc) with
        | some (step, nodes) => intoChoice convert step loc hint nodes
        | none => build fun g => g.addPrimitive .any

def convertWithin : Nat → Convert
  | 0, _, loc, _ => fail (.endlessDescent loc)
  | depth + 1, node, loc, hint => do
    note (.requested loc node)
    let s ← state
    match s.memo.get? loc with
    | some h => return h
    | none =>
      if loc ∈ s.active then
        if loc ∈ s.reentered then fail (.unresolvedRecursion .endlessReference loc)
        else
          let h ← whileReentered loc node (intoSchema (convertWithin depth) node loc hint)
          record loc h
          return h
      else
        let h ← whileActive loc node (intoSchema (convertWithin depth) node loc hint)
        record loc h
        return h

/--
How deep the conversion of a schema may nest. Each location is under way twice at most, and there
are no more locations than values in the document and in the schema.
-/
def depthBound (document node : Json) : Nat :=
  2 * (document.size + node.size) + 2

def convert : Convert := fun node loc hint => do
  convertWithin (depthBound (← state).document node) node loc hint

end Descent

end SchemaGraph
