import SchemaGraph.Proofs.Document.Addresses
import SchemaGraph.Proofs.Graph.Acceptance

/-!
This module contains the meaning of a document: which JSON values the schema at a place admits. A
schema is read by the first of its keywords that decides, as the conversion dispatches on it, and a
place admits what it has to admit by finitely many such readings.
-/

namespace SchemaGraph

def Moments.Formatted (M : Moments) : Option Json → String → Prop
  | some (.string "date"), text => M.date text
  | some (.string "time"), text => M.time text
  | some (.string "date-time"), text => M.dateTime text
  | _, _ => True

namespace Place

def FitsRecord (A : Place → Json → Prop) (place : Place) (declared : Entries String Json)
    (fields : List (String × Json)) : Prop :=
  (∀ name value, (name, value) ∈ fields → ∃ node, declared.get? name = some node ∧
    A ⟨node, place.loc.child (.property name)⟩ value) ∧
  ∀ names, place.node.field? Keyword.required.text = some (.array names) →
    ∀ name, .string name ∈ names → name ∈ declared.keys → name ∈ Entries.keys fields

def FitsObject (A : Place → Json → Prop) (place : Place) (fields : List (String × Json)) : Prop :=
  match place.node.field? Keyword.properties.text with
  | some (.object declared) => place.FitsRecord A declared fields
  | some _ => False
  | none =>
    match place.node.field? Keyword.additionalProperties.text with
    | some (.bool false) => fields = []
    | _ => True

def FitsNamed (M : Moments) (A : Place → Json → Prop) (place : Place) (name : String)
    (value : Json) : Prop :=
  match name with
  | "object" => ∃ fields, value = .object fields ∧ place.FitsObject A fields
  | "array" => ∃ elements, value = .array elements ∧
    ∀ node, place.node.field? Keyword.items.text = some node →
      ∀ e ∈ elements, A ⟨node, place.loc.child .items⟩ e
  | "string" => ∃ text, value = .string text ∧
    M.Formatted (place.node.field? Keyword.format.text) text
  | "boolean" => Primitive.bool.Fits M value
  | "null" => Primitive.null.Fits M value
  | "integer" => Primitive.integer.Fits M value
  | "number" => Primitive.double.Fits M value
  | _ => False

def FitsSome (A : Place → Json → Prop) (place : Place) (step : Nat → Step) (nodes : List Json)
    (value : Json) : Prop :=
  ∃ (i : Nat) (node : Json), nodes[i]? = some node ∧ A ⟨node, place.loc.child (step i)⟩ value

def Reads (document : Json) (M : Moments) (A : Place → Json → Prop) (place : Place)
    (value : Json) : Prop :=
  match place.node.field? Keyword.reference.text with
  | some (.string text) => ∃ reference target, Reference.ofText text = .ok reference ∧
    place.resolve document reference.target = .ok target ∧ A target value
  | some _ => False
  | none =>
    match place.node.field? Keyword.enum.text with
    | some (.array cases) => value ∈ cases
    | some _ => False
    | none =>
      match place.node.field? Keyword.type.text with
      | some (.string name) => place.FitsNamed M A name value
      | some (.array names) => ∃ name, .string name ∈ names ∧ place.FitsNamed M A name value
      | some _ => False
      | none =>
        match place.node.field? Keyword.oneOf.text with
        | some (.array nodes) => place.FitsSome A .oneOf nodes value
        | some _ => False
        | none =>
          match place.node.field? Keyword.anyOf.text with
          | some (.array nodes) => place.FitsSome A .anyOf nodes value
          | some _ => False
          | none => True

end Place

/--
The schema at a place of `document` admits a value. It is the least relation by which schemas admit
the values of their readings.
-/
inductive Admits (document : Json) (M : Moments) : Place → Json → Prop where
  | intro {place : Place} {value : Json} (A : Place → Json → Prop)
      (hA : ∀ place value, A place value → Admits document M place value)
      (hreads : place.Reads document M A value) : Admits document M place value

namespace Place

variable {document : Json} {M : Moments} {A B : Place → Json → Prop} {place : Place} {value : Json}

theorem FitsRecord.mono {declared : Entries String Json} {fields : List (String × Json)}
    (h : place.FitsRecord A declared fields) (hAB : ∀ place value, A place value → B place value) :
    place.FitsRecord B declared fields := by
  refine ⟨?_, h.2⟩
  intro name value hvalue
  obtain ⟨node, hnode, hadmits⟩ := h.1 name value hvalue
  exact ⟨node, hnode, hAB _ _ hadmits⟩

theorem FitsObject.mono {fields : List (String × Json)} (h : place.FitsObject A fields)
    (hAB : ∀ place value, A place value → B place value) : place.FitsObject B fields := by
  unfold FitsObject at h ⊢
  split at h
  . exact h.mono hAB
  . exact h
  . exact h

theorem FitsNamed.mono {name : String} (h : place.FitsNamed M A name value)
    (hAB : ∀ place value, A place value → B place value) : place.FitsNamed M B name value := by
  unfold FitsNamed at h ⊢
  split at h
  . obtain ⟨fields, rfl, hfields⟩ := h
    exact ⟨fields, rfl, hfields.mono hAB⟩
  . obtain ⟨elements, rfl, helements⟩ := h
    exact ⟨elements, rfl, fun node hnode e he => hAB _ _ (helements node hnode e he)⟩
  . exact h
  . exact h
  . exact h
  . exact h
  . exact h
  . cases h

theorem FitsSome.mono {step : Nat → Step} {nodes : List Json}
    (h : place.FitsSome A step nodes value) (hAB : ∀ place value, A place value → B place value) :
    place.FitsSome B step nodes value := by
  obtain ⟨i, node, hnode, hadmits⟩ := h
  exact ⟨i, node, hnode, hAB _ _ hadmits⟩

theorem Reads.mono (h : place.Reads document M A value)
    (hAB : ∀ place value, A place value → B place value) : place.Reads document M B value := by
  unfold Reads at h ⊢
  split at h
  . obtain ⟨reference, target, htext, hresolve, hadmits⟩ := h
    exact ⟨reference, target, htext, hresolve, hAB _ _ hadmits⟩
  . exact h
  split at h
  . exact h
  . exact h
  split at h
  . exact h.mono hAB
  . obtain ⟨name, hname, hfits⟩ := h
    exact ⟨name, hname, hfits.mono hAB⟩
  . exact h
  split at h
  . exact h.mono hAB
  . exact h
  split at h
  . exact h.mono hAB
  . exact h
  . exact h

theorem admits_iff : Admits document M place value ↔
    place.Reads document M (Admits document M) value := by
  constructor
  . rintro ⟨A, hA, hreads⟩
    exact hreads.mono hA
  . intro hreads
    exact .intro (Admits document M) (fun _ _ h => h) hreads

variable {schema : Schema}

theorem reads_reference {text : String}
    (hschema : Schema.ofJson place.node place.loc = .ok schema)
    (hform : schema.form place.loc = .ok (.reference text))
    (h : place.Reads document M A value) :
    ∃ reference target, Reference.ofText text = .ok reference ∧
      place.resolve document reference.target = .ok target ∧ A target value := by
  have hhas : schema.get? .reference = some (.string text) := Schema.has_of_form hform
  rw [Schema.get?_of_ofJson hschema] at hhas
  unfold Reads at h
  rw [hhas] at h
  exact h

theorem reads_enum {cases : List String}
    (hschema : Schema.ofJson place.node place.loc = .ok schema)
    (hform : schema.form place.loc = .ok (.enum cases)) (h : place.Reads document M A value) :
    ∃ text ∈ cases, value = .string text := by
  obtain ⟨hreference, hcases⟩ := Schema.has_of_form hform
  obtain ⟨values, henum, hstrings⟩ := Schema.cases?_eq_some hcases
  rw [Schema.get?_of_ofJson hschema] at hreference henum
  unfold Reads at h
  rw [hreference] at h
  dsimp only at h
  rw [henum] at h
  dsimp only at h
  rw [Schema.strings?_eq_some hstrings] at h
  obtain ⟨text, htext, rfl⟩ := List.mem_map.1 h
  exact ⟨text, htext, rfl⟩

theorem reads_named {names : List String}
    (hschema : Schema.ofJson place.node place.loc = .ok schema)
    (hform : schema.form place.loc = .ok (.named names)) (h : place.Reads document M A value) :
    ∃ name ∈ names, place.FitsNamed M A name value := by
  obtain ⟨hreference, henum, htypes⟩ := Schema.has_of_form hform
  rw [Schema.get?_of_ofJson hschema] at hreference henum
  unfold Reads at h
  rw [hreference] at h
  dsimp only at h
  rw [henum] at h
  dsimp only at h
  rcases Schema.types?_eq_some htypes with ⟨name, htype, rfl⟩ | ⟨values, htype, hstrings⟩
  . rw [Schema.get?_of_ofJson hschema] at htype
    rw [htype] at h
    exact ⟨name, List.mem_singleton_self _, h⟩
  . rw [Schema.get?_of_ofJson hschema] at htype
    rw [htype] at h
    obtain ⟨name, hname, hfits⟩ := h
    exact ⟨name, (Schema.mem_of_strings? hstrings).1 hname, hfits⟩

theorem reads_choice {step : Nat → Step} {nodes : List Json}
    (hschema : Schema.ofJson place.node place.loc = .ok schema)
    (hform : schema.form place.loc = .ok (.choice step nodes))
    (h : place.Reads document M A value) : place.FitsSome A step nodes value := by
  obtain ⟨hreference, henum, htype, hnodes⟩ := Schema.has_of_form hform
  rw [Schema.get?_of_ofJson hschema] at hreference henum htype
  unfold Reads at h
  rw [hreference] at h
  dsimp only at h
  rw [henum] at h
  dsimp only at h
  rw [htype] at h
  dsimp only at h
  rcases Descent.alternatives?_eq_some hnodes with ⟨rfl, hone⟩ | ⟨rfl, hone, hany⟩
  . rw [Schema.get?_of_ofJson hschema] at hone
    rw [hone] at h
    exact h
  . rw [Schema.get?_of_ofJson hschema] at hone hany
    rw [hone] at h
    dsimp only at h
    rw [hany] at h
    exact h

end Place

end SchemaGraph
