import SchemaGraph.Proofs.Abreast
import SchemaGraph.Proofs.Document.Forms
import SchemaGraph.Proofs.Reordering.Agreement

/-!
This module contains what it takes for two schemas to be read in the same way, as far as a
conversion reads them: they give the same faults, the same form and, in the same order, schemas
inside them that are related again. Every schema is tied to itself, and then each fault is one that
the schema raises by a keyword of its own.
-/

namespace SchemaGraph

def typeNames : List String :=
  ["object", "array", "string", "boolean", "null", "integer", "number"]

def formatNames : List String :=
  ["date", "time", "date-time"]

inductive Additional.Tied (R : Json → Json → Prop) : Additional → Additional → Prop
  | allowed : Tied R .allowed .allowed
  | forbidden : Tied R .forbidden .forbidden
  | schema {values values' : Json} (h : R values values') :
    Tied R (.schema values) (.schema values')

structure Schema.Tied (F : Fault → Prop) (R : Json → Json → Prop) (loc : Location)
    (schema schema' : Schema) : Prop where
  properties? : Matched F (Option.Rel (Entries.Related R)) (schema.properties? loc)
    (schema'.properties? loc)
  required : Matched F Eq (schema.required loc) (schema'.required loc)
  additional? : Option.Rel (Additional.Tied R) schema.additional? schema'.additional?
  items? : Matched F (Option.Rel R) (schema.items? loc) (schema'.items? loc)
  format? : schema.format? = schema'.format?

structure Place.Paired (R : Json → Json → Prop) (place place' : Place) : Prop where
  loc : place.loc = place'.loc
  node : R place.node place'.node

section

variable (F : Fault → Prop) (R : Json → Json → Prop) (document document' : Json)
  (place place' : Place)

inductive Form.Tied (schema schema' : Schema) : Form → Form → Prop
  | reference {text : String} (hunread : ∀ fault, Reference.ofText text = .error fault → F fault)
    (htarget : ∀ reference, Reference.ofText text = .ok reference →
      Matched F (Place.Paired R) (place.resolve document reference.target)
        (place'.resolve document' reference.target)) :
    Tied schema schema' (.reference text) (.reference text)
  | enum (cases : List String) : Tied schema schema' (.enum cases) (.enum cases)
  | named {names : List String} (hnames : names ≠ []) (h : schema.Tied F R place.loc schema')
    (htype : ∀ name ∈ names, name ∉ typeNames → F (.unknownType name place.loc))
    (hformat : "string" ∈ names → ∀ format, schema.format? = some format → format ∉ formatNames →
      F (.unknownFormat format place.loc)) : Tied schema schema' (.named names) (.named names)
  | choice (step : Nat → Step) {nodes nodes' : List Json} (h : List.Forall₂ R nodes nodes')
    (hempty : nodes = [] → F .nothingToUnify) :
    Tied schema schema' (.choice step nodes) (.choice step nodes')
  | anything : Tied schema schema' .anything .anything

def Place.Tied : Prop :=
  Matched F (fun schema schema' => schema.title? = schema'.title? ∧
      Matched F (Form.Tied F R document document' place place' schema schema')
        (schema.form place.loc) (schema'.form place'.loc))
    (Schema.ofJson place.node place.loc) (Schema.ofJson place'.node place'.loc)

end

inductive Place.Raises (document : Json) (place : Place) : Fault → Prop
  | schema {fault : Fault} (h : Schema.ofJson place.node place.loc = .error fault) :
    Raises document place fault
  | form {schema : Schema} {fault : Fault}
    (hschema : Schema.ofJson place.node place.loc = .ok schema)
    (h : schema.form place.loc = .error fault) : Raises document place fault
  | reference {schema : Schema} {text : String} {fault : Fault}
    (hschema : Schema.ofJson place.node place.loc = .ok schema)
    (hform : schema.form place.loc = .ok (.reference text))
    (h : Reference.ofText text = .error fault) : Raises document place fault
  | target {schema : Schema} {text : String} {reference : Reference} {fault : Fault}
    (hschema : Schema.ofJson place.node place.loc = .ok schema)
    (hform : schema.form place.loc = .ok (.reference text))
    (hreference : Reference.ofText text = .ok reference)
    (h : place.resolve document reference.target = .error fault) : Raises document place fault
  | properties {schema : Schema} {fault : Fault}
    (hschema : Schema.ofJson place.node place.loc = .ok schema)
    (h : schema.properties? place.loc = .error fault) : Raises document place fault
  | required {schema : Schema} {fault : Fault}
    (hschema : Schema.ofJson place.node place.loc = .ok schema)
    (h : schema.required place.loc = .error fault) : Raises document place fault
  | items {schema : Schema} {fault : Fault}
    (hschema : Schema.ofJson place.node place.loc = .ok schema)
    (h : schema.items? place.loc = .error fault) : Raises document place fault
  | type {schema : Schema} {names : List String} {name : String}
    (hschema : Schema.ofJson place.node place.loc = .ok schema)
    (hform : schema.form place.loc = .ok (.named names)) (hname : name ∈ names)
    (h : name ∉ typeNames) : Raises document place (.unknownType name place.loc)
  | format {schema : Schema} {names : List String} {format : String}
    (hschema : Schema.ofJson place.node place.loc = .ok schema)
    (hform : schema.form place.loc = .ok (.named names)) (hstring : "string" ∈ names)
    (hformat : schema.format? = some format) (h : format ∉ formatNames) :
    Raises document place (.unknownFormat format place.loc)
  | choice {schema : Schema} {step : Nat → Step}
    (hschema : Schema.ofJson place.node place.loc = .ok schema)
    (h : schema.form place.loc = .ok (.choice step [])) : Raises document place .nothingToUnify

theorem rel_self {α : Type} {r : α → α → Prop} (hr : ∀ a, r a a) (a : Option α) :
    Option.Rel r a a := by
  cases a with
  | none => exact .none
  | some a => exact .some (hr a)

theorem Additional.tied_self (additional : Additional) : additional.Tied Eq additional := by
  cases additional with
  | allowed => exact .allowed
  | forbidden => exact .forbidden
  | schema values => exact .schema rfl

theorem Entries.related_self {κ : Type} (entries : Entries κ Json) : entries.Related Eq entries :=
  List.forall₂_same.2 fun _ _ => ⟨rfl, rfl⟩

theorem Schema.types?_ne_nil {schema : Schema} {loc : Location} {names : List String}
    (h : schema.types? loc = .ok (some names)) : names ≠ [] := by
  unfold Schema.types? at h
  split at h
  . cases h
  . cases h
    exact List.cons_ne_nil _ _
  . split at h
    . cases h
    . next hne _ =>
      cases h
      exact fun hnil => hne hnil
    . cases h
  . cases h

theorem Place.tied_self (document : Json) (place : Place) :
    Place.Tied (place.Raises document) Eq document document place place := by
  refine Matched.self (fun fault h => .schema h) ?_
  intro schema hschema
  refine ⟨rfl, Matched.self (fun fault h => .form hschema h) ?_⟩
  intro form hform
  cases form with
  | reference text =>
    refine .reference (fun fault h => .reference hschema hform h) ?_
    intro reference hreference
    exact Matched.self (fun fault h => .target hschema hform hreference h) fun _ _ => ⟨rfl, rfl⟩
  | enum cases => exact .enum cases
  | named names =>
    have hnames := Schema.types?_ne_nil (Schema.has_of_form hform).2.2
    refine .named hnames ⟨?_, ?_, ?_, ?_, rfl⟩ (fun name => .type hschema hform)
      (fun hstring format => .format hschema hform hstring)
    . refine Matched.self (fun fault h => .properties hschema h) fun _ _ => ?_
      exact rel_self Entries.related_self _
    . exact Matched.self (fun fault h => .required hschema h) fun _ _ => rfl
    . exact rel_self Additional.tied_self _
    . refine Matched.self (fun fault h => .items hschema h) fun _ _ => ?_
      exact rel_self (fun _ => rfl) _
  | choice step nodes =>
    refine .choice step (List.forall₂_same.2 fun _ _ => rfl) ?_
    rintro rfl
    exact .choice hschema hform
  | anything => exact .anything

end SchemaGraph
