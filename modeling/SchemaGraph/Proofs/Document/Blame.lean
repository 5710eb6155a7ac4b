import SchemaGraph.Proofs.Document.Addresses
import SchemaGraph.Proofs.Document.Ties
import SchemaGraph.Proofs.Reordering.Documents

/-!
This module contains what is wrong with a schema that a fault blames. A fault that a schema raises
when it is read blames this schema or, when a reference in it leads nowhere, the schema at which the
reference gets stuck.
-/

namespace SchemaGraph

/--
The forms that are admitted for the value of a keyword. A keyword that is never malformed admits
every value.
-/
def Keyword.Admits (value : Json) : Keyword → Prop
  | .type => (∃ name, value = .string name) ∨
    ∃ names : List String, value = .array (names.map .string)
  | .required => ∃ names : List String, value = .array (names.map .string)
  | .properties => ∃ fields, value = .object fields
  | .items => ∃ fields, value = .object fields
  | .oneOf => ∃ nodes, value = .array nodes
  | .anyOf => ∃ nodes, value = .array nodes
  | _ => True

def Json.NamesType (node : Json) (name : String) : Prop :=
  node.field? Keyword.type.text = some (.string name) ∨
    ∃ names : List String,
      node.field? Keyword.type.text = some (.array (names.map .string)) ∧ name ∈ names

/--
The fault carries the location, and it says what is wrong with the schema there.
-/
inductive Fault.Blames (node : Json) (loc : Location) : Fault → Prop
  | notAnObject (h : node.object? = none) : Blames node loc (.notAnObject loc)
  | enumNotStrings {value : Json} (hvalue : node.field? Keyword.enum.text = some value)
    (h : ∀ texts : List String, value ≠ .array (texts.map .string)) :
    Blames node loc (.enumNotStrings loc)
  | noTypeNames (h : node.field? Keyword.type.text = some (.array [])) :
    Blames node loc (.noTypeNames loc)
  | unknownType {name : String} (hname : node.NamesType name) (h : name ∉ typeNames) :
    Blames node loc (.unknownType name loc)
  | unknownFormat {format : String} (hstring : node.NamesType "string")
    (hformat : node.field? Keyword.format.text = some (.string format))
    (h : format ∉ formatNames) : Blames node loc (.unknownFormat format loc)
  | badKeyword {keyword : Keyword} {value : Json}
    (hvalue : node.field? keyword.text = some value) (h : ¬keyword.Admits value) :
    Blames node loc (.badKeyword keyword loc)
  | noDefinition {name : String}
    (h : ∀ fields, (node.field? Keyword.definitions.text).bind (fun group => group.field? name) ≠
      some (.object fields)) : Blames node loc (.noDefinition name loc)

def Fault.isOfSchema : Fault → Bool
  | .notAnObject _ => true
  | .enumNotStrings _ => true
  | .noTypeNames _ => true
  | .unknownType _ _ => true
  | .unknownFormat _ _ => true
  | .badKeyword _ _ => true
  | .noDefinition _ _ => true
  | _ => false

theorem Fault.Blames.message {fault : Fault} {node : Json} {loc : Location}
    (h : fault.Blames node loc) : ∃ before after, fault.message = before ++ loc.text ++ after := by
  cases h with
  | notAnObject _ => exact ⟨_, "", String.append_empty.symm⟩
  | enumNotStrings _ _ => exact ⟨_, _, rfl⟩
  | noTypeNames _ => exact ⟨_, _, rfl⟩
  | unknownType _ _ => exact ⟨_, "", String.append_empty.symm⟩
  | unknownFormat _ _ _ => exact ⟨_, "", String.append_empty.symm⟩
  | badKeyword _ _ => exact ⟨_, "", String.append_empty.symm⟩
  | noDefinition _ => exact ⟨_, "", String.append_empty.symm⟩

namespace Schema

variable {schema : Schema} {node : Json} {loc : Location} {fault : Fault}

theorem strings?_eq_none {values : List Json} (h : strings? values = none) (texts : List String) :
    values ≠ texts.map .string := by
  rintro rfl
  rw [strings?_map_string] at h
  cases h

theorem blames_of_ofJson (h : ofJson node loc = .error fault) : fault.Blames node loc := by
  unfold ofJson at h
  split at h
  . cases h
  . next hobject =>
    cases h
    refine .notAnObject ?_
    cases node with
    | object fields => exact absurd rfl (hobject fields)
    | _ => rfl

variable (hschema : ofJson node loc = .ok schema)

include hschema

theorem blames_of_cases? (h : schema.cases? loc = .error fault) : fault.Blames node loc := by
  unfold cases? at h
  rw [get?_of_ofJson hschema] at h
  split at h
  . cases h
  . next values hvalue =>
    split at h
    . cases h
    . next hstrings =>
      cases h
      refine .enumNotStrings hvalue ?_
      rintro texts ⟨⟩
      exact strings?_eq_none hstrings texts rfl
  . next value hnone hvalue =>
    cases h
    exact .enumNotStrings hvalue fun texts heq => hnone _ heq

theorem blames_of_types? (h : schema.types? loc = .error fault) : fault.Blames node loc := by
  unfold types? at h
  rw [get?_of_ofJson hschema] at h
  split at h
  . cases h
  . cases h
  . next values hvalue =>
    split at h
    . next hstrings =>
      cases h
      rw [strings?_eq_some hstrings] at hvalue
      exact .noTypeNames hvalue
    . cases h
    . next hstrings =>
      cases h
      refine .badKeyword hvalue ?_
      rintro (⟨name, ⟨⟩⟩ | ⟨names, ⟨⟩⟩)
      exact strings?_eq_none hstrings names rfl
  . next value hstring harray hvalue =>
    cases h
    refine .badKeyword hvalue ?_
    rintro (⟨name, rfl⟩ | ⟨names, rfl⟩)
    . exact hstring name rfl
    . exact harray _ rfl

theorem blames_of_arrayAt? {keyword : Keyword} (hkeyword : keyword = .oneOf ∨ keyword = .anyOf)
    (h : schema.arrayAt? keyword loc = .error fault) : fault.Blames node loc := by
  unfold arrayAt? at h
  rw [get?_of_ofJson hschema] at h
  split at h
  . cases h
  . cases h
  . next value harray hvalue =>
    cases h
    refine .badKeyword hvalue ?_
    rcases hkeyword with rfl | rfl
    . rintro ⟨nodes, rfl⟩
      exact harray nodes rfl
    . rintro ⟨nodes, rfl⟩
      exact harray nodes rfl

theorem blames_of_properties? (h : schema.properties? loc = .error fault) :
    fault.Blames node loc := by
  unfold properties? at h
  rw [get?_of_ofJson hschema] at h
  split at h
  . cases h
  . cases h
  . next value hobject hvalue =>
    cases h
    refine .badKeyword hvalue ?_
    rintro ⟨fields, rfl⟩
    exact hobject fields rfl

theorem blames_of_required (h : schema.required loc = .error fault) : fault.Blames node loc := by
  unfold required at h
  rw [get?_of_ofJson hschema] at h
  split at h
  . cases h
  . next values hvalue =>
    split at h
    . cases h
    . next hstrings =>
      cases h
      refine .badKeyword hvalue ?_
      rintro ⟨names, ⟨⟩⟩
      exact strings?_eq_none hstrings names rfl
  . next value harray hvalue =>
    cases h
    refine .badKeyword hvalue ?_
    rintro ⟨names, rfl⟩
    exact harray _ rfl

theorem blames_of_items? (h : schema.items? loc = .error fault) : fault.Blames node loc := by
  unfold items? at h
  rw [get?_of_ofJson hschema] at h
  split at h
  . cases h
  . cases h
  . next value hobject hvalue =>
    cases h
    refine .badKeyword hvalue ?_
    rintro ⟨fields, rfl⟩
    exact hobject fields rfl

theorem blames_of_alternatives? (h : Descent.alternatives? schema loc = .error fault) :
    fault.Blames node loc := by
  unfold Descent.alternatives? at h
  rcases hone : schema.oneOf? loc with fault' | _ | nodes
  . rw [hone] at h
    cases h
    exact blames_of_arrayAt? hschema (Or.inl rfl) hone
  . rcases hany : schema.anyOf? loc with fault' | _ | nodes
    . simp only [hone, hany, bind, Except.bind] at h
      cases h
      exact blames_of_arrayAt? hschema (Or.inr rfl) hany
    . simp [hone, hany, bind, Except.bind, pure, Except.pure] at h
    . simp [hone, hany, bind, Except.bind, pure, Except.pure] at h
  . simp [hone, bind, Except.bind, pure, Except.pure] at h

theorem blames_of_form (h : schema.form loc = .error fault) :
    (∃ text, fault = .malformedReference text) ∨ fault.Blames node loc := by
  unfold form at h
  rcases hreference : schema.reference? with fault' | _ | text
  . rw [hreference] at h
    cases h
    unfold reference? at hreference
    split at hreference
    . cases hreference
    . cases hreference
    . cases hreference
      exact Or.inl ⟨_, rfl⟩
  . right
    rcases hcases : schema.cases? loc with fault' | _ | cases
    . simp only [hreference, hcases, bind, Except.bind] at h
      cases h
      exact blames_of_cases? hschema hcases
    . rcases htypes : schema.types? loc with fault' | _ | names
      . simp only [hreference, hcases, htypes, bind, Except.bind] at h
        cases h
        exact blames_of_types? hschema htypes
      . rcases hnodes : Descent.alternatives? schema loc with fault' | _ | ⟨step, nodes⟩
        . simp only [hreference, hcases, htypes, hnodes, bind, Except.bind] at h
          cases h
          exact blames_of_alternatives? hschema hnodes
        . simp [hreference, hcases, htypes, hnodes, bind, Except.bind, pure, Except.pure] at h
        . simp [hreference, hcases, htypes, hnodes, bind, Except.bind, pure, Except.pure] at h
      . simp [hreference, hcases, htypes, bind, Except.bind, pure, Except.pure] at h
    . simp [hreference, hcases, bind, Except.bind, pure, Except.pure] at h
  . simp [hreference, bind, Except.bind, pure, Except.pure] at h

theorem namesType_of_types? {names : List String} (h : schema.types? loc = .ok (some names))
    {name : String} (hname : name ∈ names) : node.NamesType name := by
  rcases types?_eq_some h with ⟨single, htype, rfl⟩ | ⟨values, htype, hstrings⟩
  . rw [List.mem_singleton.1 hname]
    exact Or.inl (by rw [← get?_of_ofJson hschema, htype])
  . rw [strings?_eq_some hstrings] at htype
    exact Or.inr ⟨names, by rw [← get?_of_ofJson hschema, htype], hname⟩

end Schema

namespace Place

variable {document : Json} {place : Place} {fault : Fault}

theorem blames_of_definition {name : String} (h : place.definition name = .error fault) :
    fault.Blames place.node place.loc := by
  unfold definition at h
  split at h
  . cases h
  . next hobject =>
    cases h
    exact .noDefinition hobject

theorem blames_of_walk {steps : List Step} (hsteps : ∀ step ∈ steps, step.IsReferring)
    (h : walk document steps place = .error fault) :
    ∃ taken middle, walk document taken place = .ok middle ∧
      fault.Blames middle.node middle.loc := by
  obtain ⟨taken, step, rest, middle, rfl, hwalk, hstuck⟩ := walk_eq_error h
  refine ⟨taken, middle, hwalk, ?_⟩
  rcases hsteps step (List.mem_append_right _ (List.mem_cons_self ..)) with rfl | ⟨name, rfl⟩
  . cases hstuck
  . have hroot : Step.definition name ≠ .root := by simp
    rw [step_of_ne_root hroot] at hstuck
    cases hnode : middle.inside document (.definition name) with
    | error fault' =>
      rw [hnode] at hstuck
      cases hstuck
      exact blames_of_definition hnode
    | ok node =>
      rw [hnode] at hstuck
      cases hstuck

def OffersNothing (place : Place) : Prop :=
  place.node.field? Keyword.oneOf.text = some (.array []) ∨
    place.node.field? Keyword.anyOf.text = some (.array [])

theorem Raises.cases (h : place.Raises document fault) :
    (∃ text, fault = .malformedReference text) ∨
      (fault = .nothingToUnify ∧ place.OffersNothing) ∨
      ∃ taken middle, walk document taken place = .ok middle ∧
        fault.Blames middle.node middle.loc := by
  have hhere : fault.Blames place.node place.loc → ∃ taken middle,
      walk document taken place = .ok middle ∧ fault.Blames middle.node middle.loc :=
    fun hblames => ⟨[], place, rfl, hblames⟩
  cases h with
  | schema h => exact Or.inr (Or.inr (hhere (Schema.blames_of_ofJson h)))
  | form hschema h => exact (Schema.blames_of_form hschema h).imp_right fun h => Or.inr (hhere h)
  | reference _ _ h =>
    unfold Reference.ofText at h
    split at h
    . cases h
      exact Or.inl ⟨_, rfl⟩
    . split at h
      . cases h
        exact Or.inl ⟨_, rfl⟩
      . cases h
  | target _ _ hreference h =>
    exact Or.inr (Or.inr (blames_of_walk (Reference.isReferring_of_ofText hreference).2 h))
  | properties hschema h => exact Or.inr (Or.inr (hhere (Schema.blames_of_properties? hschema h)))
  | required hschema h => exact Or.inr (Or.inr (hhere (Schema.blames_of_required hschema h)))
  | items hschema h => exact Or.inr (Or.inr (hhere (Schema.blames_of_items? hschema h)))
  | type hschema hform hname h =>
    have htypes := (Schema.has_of_form hform).2.2
    exact Or.inr (Or.inr (hhere (.unknownType (Schema.namesType_of_types? hschema htypes hname) h)))
  | format hschema hform hstring hformat h =>
    have htypes := (Schema.has_of_form hform).2.2
    have hvalue := Schema.format?_eq_some hformat
    rw [Schema.get?_of_ofJson hschema] at hvalue
    exact Or.inr (Or.inr (hhere
      (.unknownFormat (Schema.namesType_of_types? hschema htypes hstring) hvalue h)))
  | choice hschema hform =>
    refine Or.inr (Or.inl ⟨rfl, ?_⟩)
    unfold OffersNothing
    rw [← Schema.get?_of_ofJson hschema, ← Schema.get?_of_ofJson hschema]
    rcases Descent.alternatives?_eq_some (Schema.has_of_form hform).2.2.2 with
      ⟨-, hone⟩ | ⟨-, -, hany⟩
    . exact Or.inl hone
    . exact Or.inr hany

end Place

end SchemaGraph
