import SchemaGraph.Conversion.Descent

/-!
This module contains the graph of a document. Its nodes are the places of the document. Its edges
lead from a place to the places whose types go into the type of that place, in the order in which
they are asked for. An edge says whether a record or a map has been recorded at its source by then.
The module also says a conversion step in terms of the form of a schema, which is the first keyword
that decides about the type.
-/

namespace SchemaGraph

inductive Form where
  | reference (text : String)
  | enum (cases : List String)
  | named (names : List String)
  | choice (step : Nat → Step) (nodes : List Json)
  | anything

def Schema.form (schema : Schema) (loc : Location) : Except Fault Form := do
  match ← schema.reference? with
  | some text => return .reference text
  | none =>
    match ← schema.cases? loc with
    | some cases => return .enum cases
    | none =>
      match ← schema.types? loc with
      | some names => return .named names
      | none =>
        match ← Descent.alternatives? schema loc with
        | some (step, nodes) => return .choice step nodes
        | none => return .anything

inductive Link where
  | reference
  | alternative
  | items
  | property
  | values
  deriving DecidableEq

def Link.isInner : Link → Bool
  | .property => true
  | .values => true
  | _ => false

/--
An edge to `target`. It is `covered` when the source has a recorded type before the edge is
followed.
-/
structure Edge where
  link : Link
  covered : Bool
  target : Place

namespace Place

def itemEdges (place : Place) (schema : Schema) (covered : Bool) : List Edge :=
  match schema.items? place.loc with
  | .ok (some node) => [⟨.items, covered, ⟨node, place.loc.child .items⟩⟩]
  | _ => []

def fieldEdges (place : Place) (fields : List (String × Json)) : List Edge :=
  fields.map fun field => ⟨.property, true, ⟨field.2, place.loc.child (.property field.1)⟩⟩

def objectEdges (place : Place) (schema : Schema) : List Edge :=
  match schema.properties? place.loc with
  | .ok (some fields) => place.fieldEdges fields
  | .ok none =>
    match schema.additional? with
    | some (.schema values) =>
      [⟨.values, true, ⟨values, place.loc.child .additionalProperties⟩⟩]
    | _ => []
  | .error _ => []

def namedEdges (place : Place) (schema : Schema) (covered : Bool) (name : String) : List Edge :=
  if name = "array" then place.itemEdges schema covered
  else if name = "object" then place.objectEdges schema
  else []

def opens (place : Place) (schema : Schema) (name : String) : Bool :=
  name = "object" &&
    match schema.properties? place.loc with
    | .ok (some _) => true
    | .ok none =>
      match schema.additional? with
      | some (.schema _) => true
      | _ => false
    | .error _ => false

def Opens (place : Place) : Prop :=
  ∃ schema names, Schema.ofJson place.node place.loc = .ok schema ∧
    schema.form place.loc = .ok (.named names) ∧ ∃ name ∈ names, place.opens schema name = true

theorem name_of_opens {place : Place} {schema : Schema} {name : String}
    (h : place.opens schema name = true) : name = "object" := by
  unfold opens at h
  exact of_decide_eq_true (Bool.and_eq_true_iff.1 h).1

def typeEdges (place : Place) (schema : Schema) : Bool → List String → List Edge
  | _, [] => []
  | covered, name :: rest =>
    place.namedEdges schema covered name ++
      place.typeEdges schema (covered || place.opens schema name) rest

def choiceEdges (place : Place) (step : Nat → Step) : Nat → List Json → List Edge
  | _, [] => []
  | index, node :: rest =>
    ⟨.alternative, false, ⟨node, place.loc.child (step index)⟩⟩ ::
      place.choiceEdges step (index + 1) rest

def referenceEdges (place : Place) (document : Json) (text : String) : List Edge :=
  match Reference.ofText text with
  | .ok reference =>
    match place.resolve document reference.target with
    | .ok target => [⟨.reference, false, target⟩]
    | .error _ => []
  | .error _ => []

def formEdges (place : Place) (document : Json) (schema : Schema) : Form → List Edge
  | .reference text => place.referenceEdges document text
  | .enum _ => []
  | .named names => place.typeEdges schema false (distinct names)
  | .choice step nodes => place.choiceEdges step 0 nodes
  | .anything => []

def edges (place : Place) (document : Json) : List Edge :=
  match Schema.ofJson place.node place.loc with
  | .ok schema =>
    match schema.form place.loc with
    | .ok form => place.formEdges document schema form
    | .error _ => []
  | .error _ => []

theorem edges_of_form {place : Place} {document : Json} {schema : Schema} {form : Form}
    (hschema : Schema.ofJson place.node place.loc = .ok schema)
    (hform : schema.form place.loc = .ok form) :
    place.edges document = place.formEdges document schema form := by
  unfold edges
  rw [hschema]
  dsimp only
  rw [hform]

end Place

namespace Descent

open Effect

def intoForm (convert : Convert) (schema : Schema) (place : Place) (hint : NameHint) :
    Form → Effect Handle
  | .reference text => intoReference convert text place hint
  | .enum cases => build fun g => g.addEnum hint cases
  | .named names => intoNames convert schema place.loc hint names
  | .choice step nodes => intoChoice convert step place.loc hint nodes
  | .anything => build fun g => g.addPrimitive .any

theorem intoSchema_eq (convert : Convert) (place : Place) (hint : NameHint) :
    intoSchema convert place.node place.loc hint = (do
      let schema ← check (Schema.ofJson place.node place.loc)
      let form ← check (schema.form place.loc)
      intoForm convert schema place ((schema.title?.map NameHint.explicit).getD hint) form) := by
  unfold intoSchema
  congr 1
  funext schema
  unfold Schema.form
  cases schema.reference? with
  | error fault => rfl
  | ok text? =>
    cases text? with
    | some text => rfl
    | none =>
      cases schema.cases? place.loc with
      | error fault => rfl
      | ok cases? =>
        cases cases? with
        | some cases => rfl
        | none =>
          cases schema.types? place.loc with
          | error fault => rfl
          | ok names? =>
            cases names? with
            | some names => rfl
            | none =>
              cases alternatives? schema place.loc with
              | error fault => rfl
              | ok nodes? =>
                cases nodes? with
                | some nodes => rfl
                | none => rfl

end Descent

end SchemaGraph
