import SchemaGraph.Proofs.Document.Ties
import SchemaGraph.Proofs.Document.UniqueKeys
import SchemaGraph.Proofs.Reordering.Documents

/-!
This module contains documents from which fields have been deleted that are not in force. Which
keywords of a schema are in force depends on the keywords that it has: a reference shadows almost
everything else, an enum what a reference leaves, a type the alternatives, and `oneOf` shadows
`anyOf`. A pruned schema is tied to the schema that it comes from.
-/

namespace SchemaGraph

namespace Keyword

def all : List Keyword :=
  [.title, .reference, .definitions, .enum, .type, .format, .properties, .required,
    .additionalProperties, .items, .oneOf, .anyOf]

def inForce (keys : List String) : List Keyword :=
  if reference.text ∈ keys then [.title, .definitions, .reference]
  else if enum.text ∈ keys then [.title, .definitions, .reference, .enum]
  else if type.text ∈ keys then all.filter fun keyword => keyword ∉ [.oneOf, .anyOf]
  else if oneOf.text ∈ keys then all.filter fun keyword => keyword ≠ .anyOf
  else all

/--
The ways in which the value of a keyword consists of schemas.
-/
inductive Nesting where
  /-- The value is a schema. -/
  | schema
  /-- The value is an object of schemas. -/
  | group
  /-- The value is an array of schemas. -/
  | nodes

def nesting? : Keyword → Option Nesting
  | .items => some .schema
  | .additionalProperties => some .schema
  | .definitions => some .group
  | .properties => some .group
  | .oneOf => some .nodes
  | .anyOf => some .nodes
  | _ => none

end Keyword

mutual

/--
The second value is the first one, read as a schema, after some fields that are not in force have
been deleted from it and from schemas at any depth inside it.
-/
inductive Pruned : Json → Json → Prop
  | object {fields fields' : List (String × Json)} (h : PrunedFields fields fields fields') :
    Pruned (.object fields) (.object fields')
  | other {value : Json} (h : value.object? = none) : Pruned value value

inductive PrunedFields :
    Entries String Json → List (String × Json) → List (String × Json) → Prop
  | nil (whole : Entries String Json) : PrunedFields whole [] []
  | keep {whole : Entries String Json} {key : String} {value value' : Json}
    {rest rest' : List (String × Json)} (hvalue : PrunedValue key value value')
    (hrest : PrunedFields whole rest rest') :
    PrunedFields whole ((key, value) :: rest) ((key, value') :: rest')
  | delete {whole : Entries String Json} {key : String} {value : Json}
    {rest rest' : List (String × Json)}
    (hkey : key ∉ (Keyword.inForce whole.keys).map Keyword.text)
    (hrest : PrunedFields whole rest rest') : PrunedFields whole ((key, value) :: rest) rest'

inductive PrunedValue : String → Json → Json → Prop
  | same (key : String) (value : Json) : PrunedValue key value value
  | schema {keyword : Keyword} {value value' : Json} (hkeyword : keyword.nesting? = some .schema)
    (h : Pruned value value') : PrunedValue keyword.text value value'
  | group {keyword : Keyword} {fields fields' : List (String × Json)}
    (hkeyword : keyword.nesting? = some .group) (h : PrunedGroup fields fields') :
    PrunedValue keyword.text (.object fields) (.object fields')
  | nodes {keyword : Keyword} {nodes nodes' : List Json}
    (hkeyword : keyword.nesting? = some .nodes) (h : PrunedNodes nodes nodes') :
    PrunedValue keyword.text (.array nodes) (.array nodes')

inductive PrunedGroup : List (String × Json) → List (String × Json) → Prop
  | nil : PrunedGroup [] []
  | cons {name : String} {node node' : Json} {rest rest' : List (String × Json)}
    (hnode : Pruned node node') (hrest : PrunedGroup rest rest') :
    PrunedGroup ((name, node) :: rest) ((name, node') :: rest')

inductive PrunedNodes : List Json → List Json → Prop
  | nil : PrunedNodes [] []
  | cons {node node' : Json} {rest rest' : List Json} (hnode : Pruned node node')
    (hrest : PrunedNodes rest rest') : PrunedNodes (node :: rest) (node' :: rest')

end

theorem PrunedFields.refl (whole : Entries String Json) (fields : List (String × Json)) :
    PrunedFields whole fields fields := by
  induction fields with
  | nil => exact .nil whole
  | cons field rest ih => exact .keep (.same field.1 field.2) ih

theorem Pruned.refl (value : Json) : Pruned value value := by
  cases value with
  | object fields => exact .object (.refl fields fields)
  | _ => exact .other rfl

theorem PrunedGroup.related {fields fields' : List (String × Json)}
    (h : PrunedGroup fields fields') : Entries.Related Pruned fields fields' := by
  induction fields generalizing fields' with
  | nil =>
    cases h
    exact .nil
  | cons field rest ih =>
    cases h with
    | cons hnode hrest => exact .cons ⟨rfl, hnode⟩ (ih hrest)

theorem PrunedNodes.forall₂ {nodes nodes' : List Json} (h : PrunedNodes nodes nodes') :
    List.Forall₂ Pruned nodes nodes' := by
  induction nodes generalizing nodes' with
  | nil =>
    cases h
    exact .nil
  | cons node rest ih =>
    cases h with
    | cons hnode hrest => exact .cons hnode (ih hrest)

theorem PrunedFields.keys_sublist {whole : Entries String Json}
    {fields fields' : List (String × Json)} (h : PrunedFields whole fields fields') :
    (Entries.keys fields').Sublist (Entries.keys fields) := by
  induction fields generalizing fields' with
  | nil =>
    cases h
    exact .slnil
  | cons field rest ih =>
    cases h with
    | keep _ hrest => exact (ih hrest).cons_cons _
    | delete _ hrest => exact (ih hrest).cons _

mutual

theorem Pruned.hasUniqueKeys {value value' : Json} :
    Pruned value value' → value.hasUniqueKeys = true → value'.hasUniqueKeys = true
  | .object h, hkeys => by
    rw [Json.hasUniqueKeys_object_iff] at hkeys ⊢
    exact ⟨hkeys.1.sublist h.keys_sublist, h.hasUniqueKeys hkeys.2⟩
  | .other _, hkeys => hkeys

theorem PrunedFields.hasUniqueKeys {whole : Entries String Json}
    {fields fields' : List (String × Json)} : PrunedFields whole fields fields' →
    (∀ key value, (key, value) ∈ fields → value.hasUniqueKeys = true) →
    ∀ key value, (key, value) ∈ fields' → value.hasUniqueKeys = true
  | .nil _, hkeys => hkeys
  | .keep hvalue hrest, hkeys => by
    intro key value hmem
    rcases List.mem_cons.1 hmem with heq | hmem
    . cases heq
      exact hvalue.hasUniqueKeys (hkeys _ _ (List.mem_cons_self ..))
    . exact hrest.hasUniqueKeys (fun key value h => hkeys key value (List.mem_cons_of_mem _ h))
        key value hmem
  | .delete _ hrest, hkeys =>
    hrest.hasUniqueKeys fun key value h => hkeys key value (List.mem_cons_of_mem _ h)

theorem PrunedValue.hasUniqueKeys {key : String} {value value' : Json} :
    PrunedValue key value value' → value.hasUniqueKeys = true → value'.hasUniqueKeys = true
  | .same _ _, hkeys => hkeys
  | .schema _ h, hkeys => h.hasUniqueKeys hkeys
  | .group _ h, hkeys => by
    rw [Json.hasUniqueKeys_object_iff] at hkeys ⊢
    refine ⟨?_, h.hasUniqueKeys hkeys.2⟩
    rw [← h.related.keys_eq]
    exact hkeys.1
  | .nodes _ h, hkeys => Json.elementsHaveUniqueKeys_iff.2
    (h.hasUniqueKeys (Json.elementsHaveUniqueKeys_iff.1 hkeys))

theorem PrunedGroup.hasUniqueKeys {fields fields' : List (String × Json)} :
    PrunedGroup fields fields' →
    (∀ key value, (key, value) ∈ fields → value.hasUniqueKeys = true) →
    ∀ key value, (key, value) ∈ fields' → value.hasUniqueKeys = true
  | .nil, hkeys => hkeys
  | .cons hnode hrest, hkeys => by
    intro key value hmem
    rcases List.mem_cons.1 hmem with heq | hmem
    . cases heq
      exact hnode.hasUniqueKeys (hkeys _ _ (List.mem_cons_self ..))
    . exact hrest.hasUniqueKeys (fun key value h => hkeys key value (List.mem_cons_of_mem _ h))
        key value hmem

theorem PrunedNodes.hasUniqueKeys {nodes nodes' : List Json} : PrunedNodes nodes nodes' →
    (∀ node ∈ nodes, node.hasUniqueKeys = true) → ∀ node ∈ nodes', node.hasUniqueKeys = true
  | .nil, hkeys => hkeys
  | .cons hnode hrest, hkeys => by
    rw [List.forall_mem_cons] at hkeys ⊢
    exact ⟨hnode.hasUniqueKeys hkeys.1, hrest.hasUniqueKeys hkeys.2⟩

end

namespace PrunedValue

variable {keyword : Keyword} {value value' : Json}

theorem nested (h : PrunedValue keyword.text value value') :
    value = value' ∨ (keyword.nesting? = some .schema ∧ Pruned value value') ∨
      (keyword.nesting? = some .group ∧ Option.Rel PrunedGroup value.object? value'.object?) ∨
      (keyword.nesting? = some .nodes ∧ Option.Rel PrunedNodes value.array? value'.array?) := by
  generalize hkey : keyword.text = key at h
  cases h with
  | same => exact Or.inl rfl
  | schema hkeyword h =>
    obtain rfl := Keyword.text_injective hkey
    exact Or.inr (Or.inl ⟨hkeyword, h⟩)
  | group hkeyword h =>
    obtain rfl := Keyword.text_injective hkey
    exact Or.inr (Or.inr (Or.inl ⟨hkeyword, .some h⟩))
  | nodes hkeyword h =>
    obtain rfl := Keyword.text_injective hkey
    exact Or.inr (Or.inr (Or.inr ⟨hkeyword, .some h⟩))

theorem eq (h : PrunedValue keyword.text value value') (hplain : keyword.nesting? = none) :
    value = value' := by
  rcases h.nested with rfl | ⟨hkeyword, -⟩ | ⟨hkeyword, -⟩ | ⟨hkeyword, -⟩
  . rfl
  all_goals
    rw [hplain] at hkeyword
    cases hkeyword

theorem pruned (h : PrunedValue keyword.text value value')
    (hschema : keyword.nesting? = some .schema) : Pruned value value' := by
  rcases h.nested with rfl | ⟨-, h⟩ | ⟨hkeyword, -⟩ | ⟨hkeyword, -⟩
  . exact .refl value
  . exact h
  all_goals
    rw [hschema] at hkeyword
    cases hkeyword

theorem object?_rel (h : PrunedValue keyword.text value value')
    (hgroup : keyword.nesting? = some .group) :
    Option.Rel (Entries.Related Pruned) value.object? value'.object? := by
  rcases h.nested with rfl | ⟨hkeyword, -⟩ | ⟨-, h⟩ | ⟨hkeyword, -⟩
  . exact rel_self (fun _ => List.forall₂_same.2 fun _ _ => ⟨rfl, .refl _⟩) _
  . rw [hgroup] at hkeyword
    cases hkeyword
  . match value.object?, value'.object?, h with
    | _, _, .none => exact .none
    | _, _, .some h => exact .some h.related
  . rw [hgroup] at hkeyword
    cases hkeyword

theorem array?_rel (h : PrunedValue keyword.text value value')
    (hnodes : keyword.nesting? = some .nodes) :
    Option.Rel (List.Forall₂ Pruned) value.array? value'.array? := by
  rcases h.nested with rfl | ⟨hkeyword, -⟩ | ⟨hkeyword, -⟩ | ⟨-, h⟩
  . exact rel_self (fun _ => List.forall₂_same.2 fun _ _ => .refl _) _
  . rw [hnodes] at hkeyword
    cases hkeyword
  . rw [hnodes] at hkeyword
    cases hkeyword
  . match value.array?, value'.array?, h with
    | _, _, .none => exact .none
    | _, _, .some h => exact .some h.forall₂

end PrunedValue

theorem PrunedFields.get? {whole : Entries String Json} {fields fields' : List (String × Json)}
    {keyword : Keyword} (h : PrunedFields whole fields fields')
    (hforce : keyword ∈ Keyword.inForce whole.keys) :
    Option.Rel (PrunedValue keyword.text) (Entries.get? fields keyword.text)
      (Entries.get? fields' keyword.text) := by
  induction fields generalizing fields' with
  | nil =>
    cases h
    exact .none
  | cons field rest ih =>
    cases h with
    | keep hvalue hrest =>
      unfold Entries.get?
      split
      . next heq =>
        subst heq
        exact .some hvalue
      . exact ih hrest
    | @delete _ key value _ _ hkey hrest =>
      have hne : key ≠ keyword.text := by
        rintro rfl
        exact hkey (List.mem_map_of_mem hforce)
      have hget : Entries.get? ((key, value) :: rest) keyword.text =
          Entries.get? rest keyword.text := if_neg hne
      rw [hget]
      exact ih hrest

def Schema.PrunedTo (schema schema' : Schema) : Prop :=
  PrunedFields schema.fields schema.fields schema'.fields

def Schema.Heeds (schema : Schema) (keyword : Keyword) : Prop :=
  keyword ∈ Keyword.inForce schema.fields.keys

namespace Schema

variable {schema schema' : Schema} {loc : Location}

theorem heeds_of_mem {keyword : Keyword}
    (hkeyword : keyword ∈ [Keyword.title, .definitions, .reference]) : schema.Heeds keyword := by
  unfold Heeds Keyword.inForce
  split_ifs <;> revert hkeyword <;> cases keyword <;> decide

theorem heeds_enum (href : schema.get? .reference = none) : schema.Heeds .enum := by
  unfold Heeds Keyword.inForce
  rw [if_neg (Entries.get?_eq_none_iff.1 href)]
  split_ifs <;> decide

theorem heeds_of_not_mem {keyword : Keyword} (href : schema.get? .reference = none)
    (henum : schema.get? .enum = none) (hkeyword : keyword ∉ [Keyword.oneOf, .anyOf]) :
    schema.Heeds keyword := by
  unfold Heeds Keyword.inForce
  rw [if_neg (Entries.get?_eq_none_iff.1 href), if_neg (Entries.get?_eq_none_iff.1 henum)]
  split_ifs <;> revert hkeyword <;> cases keyword <;> decide

theorem heeds_oneOf (href : schema.get? .reference = none) (henum : schema.get? .enum = none)
    (htype : schema.get? .type = none) : schema.Heeds .oneOf := by
  unfold Heeds Keyword.inForce
  rw [if_neg (Entries.get?_eq_none_iff.1 href), if_neg (Entries.get?_eq_none_iff.1 henum),
    if_neg (Entries.get?_eq_none_iff.1 htype)]
  split_ifs <;> decide

theorem heeds_anyOf (href : schema.get? .reference = none) (henum : schema.get? .enum = none)
    (htype : schema.get? .type = none) (hone : schema.get? .oneOf = none) :
    schema.Heeds .anyOf := by
  unfold Heeds Keyword.inForce
  rw [if_neg (Entries.get?_eq_none_iff.1 href), if_neg (Entries.get?_eq_none_iff.1 henum),
    if_neg (Entries.get?_eq_none_iff.1 htype), if_neg (Entries.get?_eq_none_iff.1 hone)]
  decide

namespace PrunedTo

theorem get?_rel {keyword : Keyword} (h : schema.PrunedTo schema') (hforce : schema.Heeds keyword) :
    Option.Rel (PrunedValue keyword.text) (schema.get? keyword) (schema'.get? keyword) :=
  PrunedFields.get? h hforce

theorem get?_eq {keyword : Keyword} (h : schema.PrunedTo schema') (hforce : schema.Heeds keyword)
    (hplain : keyword.nesting? = none) : schema.get? keyword = schema'.get? keyword := by
  match schema.get? keyword, schema'.get? keyword, h.get?_rel hforce with
  | _, _, .none => rfl
  | _, _, .some hvalue => rw [hvalue.eq hplain]

theorem title?_eq (h : schema.PrunedTo schema') : schema.title? = schema'.title? := by
  unfold title?
  rw [h.get?_eq (heeds_of_mem (by decide)) rfl]

theorem reference?_eq (h : schema.PrunedTo schema') : schema.reference? = schema'.reference? := by
  unfold reference?
  rw [h.get?_eq (heeds_of_mem (by decide)) rfl]

theorem cases?_eq (h : schema.PrunedTo schema') (href : schema.get? .reference = none) :
    schema.cases? loc = schema'.cases? loc := by
  unfold cases?
  rw [h.get?_eq (heeds_enum href) rfl]

section

variable (href : schema.get? .reference = none) (henum : schema.get? .enum = none)

include href henum

theorem types?_eq (h : schema.PrunedTo schema') : schema.types? loc = schema'.types? loc := by
  unfold types?
  rw [h.get?_eq (heeds_of_not_mem href henum (by decide)) rfl]

theorem required_eq (h : schema.PrunedTo schema') : schema.required loc = schema'.required loc := by
  unfold required
  rw [h.get?_eq (heeds_of_not_mem href henum (by decide)) rfl]

theorem format?_eq (h : schema.PrunedTo schema') : schema.format? = schema'.format? := by
  unfold format?
  rw [h.get?_eq (heeds_of_not_mem href henum (by decide)) rfl]

theorem items?_matched (h : schema.PrunedTo schema') :
    Matched (fun _ => True) (Option.Rel Pruned) (schema.items? loc) (schema'.items? loc) := by
  unfold items?
  match schema.get? .items, schema'.get? .items,
    h.get?_rel (heeds_of_not_mem href henum (by decide)) with
  | _, _, .none => exact .values .none
  | some value, _, .some hvalue =>
    cases hvalue.pruned rfl with
    | object h => exact .values (.some (.object h))
    | other h =>
      cases value with
      | object fields => cases h
      | _ => exact .fault trivial

theorem additional?_rel (h : schema.PrunedTo schema') :
    Option.Rel (Additional.Tied Pruned) schema.additional? schema'.additional? := by
  unfold additional?
  match schema.get? .additionalProperties, schema'.get? .additionalProperties,
    h.get?_rel (heeds_of_not_mem href henum (by decide)) with
  | _, _, .none => exact .none
  | some value, _, .some hvalue =>
    cases hvalue.pruned rfl with
    | object h => exact .some (.schema (.object h))
    | other h =>
      cases value with
      | object fields => cases h
      | bool value =>
        cases value with
        | true => exact .some .allowed
        | false => exact .some .forbidden
      | _ => exact .none

theorem properties?_matched (h : schema.PrunedTo schema') :
    Matched (fun _ => True) (Option.Rel (Entries.Related Pruned)) (schema.properties? loc)
      (schema'.properties? loc) := by
  unfold properties?
  match schema.get? .properties, schema'.get? .properties,
    h.get?_rel (heeds_of_not_mem href henum (by decide)) with
  | _, _, .none => exact .values .none
  | some value, some value', .some hvalue =>
    have hgroup := hvalue.object?_rel rfl
    cases value with
    | object fields =>
      cases value' with
      | object fields' => exact .values hgroup
      | _ => cases hgroup
    | _ =>
      cases value' with
      | object fields' => cases hgroup
      | _ => exact .fault trivial

end

theorem arrayAt?_matched {keyword : Keyword} (h : schema.PrunedTo schema')
    (hforce : schema.Heeds keyword) (hnodes : keyword.nesting? = some .nodes) :
    Matched (fun _ => True) (Option.Rel (List.Forall₂ Pruned)) (schema.arrayAt? keyword loc)
      (schema'.arrayAt? keyword loc) := by
  unfold arrayAt?
  match schema.get? keyword, schema'.get? keyword, h.get?_rel hforce with
  | _, _, .none => exact .values .none
  | some value, some value', .some hvalue =>
    have helements := hvalue.array?_rel hnodes
    cases value with
    | array nodes =>
      cases value' with
      | array nodes' => exact .values helements
      | _ => cases helements
    | _ =>
      cases value' with
      | array nodes' => cases helements
      | _ => exact .fault trivial

end PrunedTo

end Schema

theorem Entries.Related.field?_rel {group group' : Json}
    (h : Option.Rel (Entries.Related Pruned) group.object? group'.object?) (name : String) :
    Option.Rel Pruned (group.field? name) (group'.field? name) := by
  cases group with
  | object fields =>
    cases group' with
    | object fields' =>
      cases h with
      | some h => exact h.get? name
    | _ => cases h
  | _ =>
    cases group' with
    | object fields' => cases h
    | _ => exact .none

namespace Pruned

variable {document document' node node' : Json} {loc : Location}

theorem definitions_rel (h : Pruned node node') (name : String) :
    Option.Rel Pruned
      ((node.field? Keyword.definitions.text).bind fun group => group.field? name)
      ((node'.field? Keyword.definitions.text).bind fun group => group.field? name) := by
  cases h with
  | object h =>
    rename_i fields fields'
    have hforce : (Schema.mk fields).Heeds .definitions := Schema.heeds_of_mem (by decide)
    apply rel_bind (PrunedFields.get? h hforce)
    intro group group' hgroup
    exact Entries.Related.field?_rel (hgroup.object?_rel rfl) name
  | other _ => exact rel_self .refl _

theorem definition_matched (h : Pruned node node') (name : String) :
    Matched (fun _ => True) Pruned (Place.definition ⟨node, loc⟩ name)
      (Place.definition ⟨node', loc⟩ name) := by
  have hnode := h.definitions_rel name
  unfold Place.definition
  dsimp only
  revert hnode
  generalize Option.bind _ (fun group : Json => group.field? name) = node?
  generalize Option.bind _ (fun group : Json => group.field? name) = node'?
  rintro (@⟨value, value', hnode⟩ | _)
  . cases hnode with
    | object h => exact .values (.object h)
    | other h =>
      cases value with
      | object fields => cases h
      | _ => exact .fault trivial
  . exact .fault trivial

theorem walk_matched (hdocument : Pruned document document') (h : Pruned node node')
    {steps : List Step} (hsteps : ∀ step ∈ steps, step.IsReferring) :
    Matched (fun _ => True) (Place.Paired Pruned) (Place.walk document steps ⟨node, loc⟩)
      (Place.walk document' steps ⟨node', loc⟩) := by
  induction steps generalizing node node' loc with
  | nil => exact .values ⟨rfl, h⟩
  | cons step rest ih =>
    obtain ⟨hstep, hrest⟩ := List.forall_mem_cons.1 hsteps
    have hnext : Matched (fun _ => True) (Place.Paired Pruned)
        (Place.step document ⟨node, loc⟩ step) (Place.step document' ⟨node', loc⟩ step) := by
      rcases hstep with rfl | ⟨name, rfl⟩
      . exact .values ⟨rfl, hdocument⟩
      . apply (h.definition_matched name).bind
        exact fun _ _ hnode => .values ⟨rfl, hnode⟩
    rw [Place.walk_cons, Place.walk_cons]
    apply hnext.bind
    rintro ⟨next, loc⟩ ⟨next', _⟩ ⟨rfl, hnode⟩
    exact ih hnode hrest

end Pruned

namespace Schema.PrunedTo

variable {document document' : Json} {schema schema' : Schema} {place place' : Place}
  {loc : Location}

theorem tied (h : schema.PrunedTo schema') (href : schema.get? .reference = none)
    (henum : schema.get? .enum = none) :
    schema.Tied (fun _ => True) Pruned loc schema' where
  properties? := h.properties?_matched href henum
  required := by
    rw [h.required_eq href henum]
    exact Matched.self (fun _ _ => trivial) fun _ _ => rfl
  additional? := h.additional?_rel href henum
  items? := h.items?_matched href henum
  format? := h.format?_eq href henum

theorem alternatives?_matched (h : schema.PrunedTo schema') (href : schema.get? .reference = none)
    (henum : schema.get? .enum = none) (htype : schema.get? .type = none) :
    Matched (fun _ => True)
      (Option.Rel fun choice choice' => choice.1 = choice'.1 ∧
        List.Forall₂ Pruned choice.2 choice'.2)
      (Descent.alternatives? schema loc) (Descent.alternatives? schema' loc) := by
  unfold Descent.alternatives?
  refine Matched.bind (h.arrayAt?_matched (heeds_oneOf href henum htype) rfl).attach ?_
  rintro _ _ ⟨hnodes | _, hone⟩
  . exact .values (.some ⟨rfl, hnodes⟩)
  . have hany := heeds_anyOf href henum htype (arrayAt?_eq_none hone)
    apply (h.arrayAt?_matched hany rfl).bind
    rintro _ _ (hnodes | _)
    . exact .values (.some ⟨rfl, hnodes⟩)
    . exact .values .none

theorem form_matched (hdocument : Pruned document document')
    (hplace : Place.Paired Pruned place place') (h : schema.PrunedTo schema') :
    Matched (fun _ => True)
      (Form.Tied (fun _ => True) Pruned document document' place place' schema schema')
      (schema.form place.loc) (schema'.form place.loc) := by
  have hsame : ∀ {α : Type} {x y : Except Fault α}, x = y →
      Matched (fun _ => True) (fun a b => a = b ∧ x = .ok a) x y := by
    rintro α x _ rfl
    exact Matched.self (fun _ _ => trivial) fun _ ha => ⟨rfl, ha⟩
  unfold Schema.form
  apply (hsame h.reference?_eq).bind
  rintro text? _ ⟨rfl, htext⟩
  cases text? with
  | some text =>
    refine .values (.reference (fun _ _ => trivial) fun reference hreference => ?_)
    obtain ⟨node, loc⟩ := place
    obtain ⟨node', _⟩ := place'
    obtain ⟨rfl, hnode⟩ := hplace
    exact Pruned.walk_matched hdocument hnode (Reference.isReferring_of_ofText hreference).2
  | none =>
    have href := reference?_eq_none htext
    apply (hsame (h.cases?_eq href)).bind
    rintro cases? _ ⟨rfl, hcases⟩
    cases cases? with
    | some cases => exact .values (.enum cases)
    | none =>
      have henum := cases?_eq_none hcases
      apply (hsame (h.types?_eq href henum)).bind
      rintro names? _ ⟨rfl, hnames⟩
      cases names? with
      | some names =>
        exact .values (.named (types?_ne_nil hnames) (h.tied href henum) (fun _ _ _ => trivial)
          fun _ _ _ _ => trivial)
      | none =>
        apply (h.alternatives?_matched href henum (types?_eq_none hnames)).bind
        rintro _ _ (@⟨⟨step, nodes⟩, ⟨step', nodes'⟩, rfl, hnodes⟩ | _)
        . exact .values (.choice step hnodes fun _ => trivial)
        . exact .values .anything

end Schema.PrunedTo

theorem Place.tied_of_pruned {document document' : Json} {place place' : Place}
    (hdocument : Pruned document document') (hplace : Place.Paired Pruned place place') :
    Place.Tied (fun _ => True) Pruned document document' place place' := by
  obtain ⟨node, loc⟩ := place
  obtain ⟨node', _⟩ := place'
  obtain ⟨rfl, hnode⟩ := id hplace
  unfold Place.Tied
  cases id hnode with
  | object h =>
    rename_i fields fields'
    have hpruned : (Schema.mk fields).PrunedTo ⟨fields'⟩ := h
    exact .values ⟨hpruned.title?_eq, hpruned.form_matched hdocument hplace⟩
  | other h =>
    rw [Schema.ofJson_of_object?_eq_none h]
    exact .fault trivial

end SchemaGraph
