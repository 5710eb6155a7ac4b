import SchemaGraph.Proofs.Document.Addresses
import SchemaGraph.Proofs.Document.Forms
import SchemaGraph.Proofs.Reordering.Agreement

/-!
This module contains documents that differ only in the order and the repetition of the names in
their lists of types. They are read alike: what an accessor finds in one schema it finds in its
counterpart, and the two accessors fail together.
-/

namespace SchemaGraph

def nests (name : String) : Bool :=
  name = "object" || name = "array"

/--
The lists name the same types, and of those with schemas inside the same one first.
-/
structure SameTypes (names names' : List String) : Prop where
  mem name : name ∈ names ↔ name ∈ names'
  nesting : (distinct names).filter nests = (distinct names').filter nests

mutual

inductive Reordered : Json → Json → Prop
  | null : Reordered .null .null
  | bool (value : Bool) : Reordered (.bool value) (.bool value)
  | integer (value : Int) : Reordered (.integer value) (.integer value)
  | double (value : Double) : Reordered (.double value) (.double value)
  | string (text : String) : Reordered (.string text) (.string text)
  | array {elements elements' : List Json} (h : List.Forall₂ Reordered elements elements') :
    Reordered (.array elements) (.array elements')
  | object {fields fields' : List (String × Json)}
    (h : List.Forall₂ ReorderedField fields fields') : Reordered (.object fields) (.object fields')

inductive ReorderedField : String × Json → String × Json → Prop
  | value (key : String) {value value' : Json} (h : Reordered value value') :
    ReorderedField (key, value) (key, value')
  | types {names names' : List String} (h : SameTypes names names') :
    ReorderedField ("type", .array (names.map .string)) ("type", .array (names'.map .string))

end

structure Counterparts (value value' : Json) : Prop where
  unique : value.hasUniqueKeys = true
  reordered : Reordered value value'

inductive Twins : Json → Json → Prop
  | schema {fields fields' : List (String × Json)}
    (unique : (Json.object fields).hasUniqueKeys = true)
    (h : List.Forall₂ ReorderedField fields fields') : Twins (.object fields) (.object fields')
  | other {value value' : Json} (h : value.object? = none) (h' : value'.object? = none) :
    Twins value value'

structure TwinFields (fields fields' : Entries String Json) : Prop where
  unique : fields.keys.Nodup
  twins : fields.Related Twins fields'

theorem Counterparts.twins {value value' : Json} (h : Counterparts value value') :
    Twins value value' := by
  obtain ⟨hunique, hvalue⟩ := h
  cases hvalue with
  | object hfields => exact .schema hunique hfields
  | _ => exact .other rfl rfl

theorem ReorderedField.twins {field field' : String × Json} (h : ReorderedField field field')
    (hunique : field.2.hasUniqueKeys = true) : field.1 = field'.1 ∧ Twins field.2 field'.2 := by
  cases h with
  | value key hvalue => exact ⟨rfl, Counterparts.twins ⟨hunique, hvalue⟩⟩
  | types hnames => exact ⟨rfl, .other rfl rfl⟩

theorem TwinFields.of_reordered {fields fields' : List (String × Json)}
    (hunique : (Json.object fields).hasUniqueKeys = true)
    (h : List.Forall₂ ReorderedField fields fields') : TwinFields fields fields' := by
  obtain ⟨hkeys, hvalues⟩ := Json.hasUniqueKeys_object_iff.1 hunique
  refine ⟨hkeys, ?_⟩
  clear hunique hkeys
  induction h with
  | nil => exact .nil
  | @cons field field' rest rest' hfield hrest ih =>
    refine .cons (hfield.twins (hvalues field.1 field.2 (List.mem_cons_self ..))) ?_
    exact ih fun key value hmem => hvalues key value (List.mem_cons_of_mem _ hmem)

theorem get?_of_reordered {fields fields' : List (String × Json)}
    (h : List.Forall₂ ReorderedField fields fields') (key : String) :
    Option.Rel (fun value value' => ReorderedField (key, value) (key, value'))
      (Entries.get? fields key) (Entries.get? fields' key) := by
  induction h with
  | nil => exact .none
  | cons hfield _ ih =>
    cases hfield with
    | value key' hvalue =>
      unfold Entries.get?
      split
      . exact .some (.value key hvalue)
      . exact ih
    | types hnames =>
      unfold Entries.get?
      split
      . next heq =>
        subst heq
        exact .some (.types hnames)
      . exact ih

theorem Json.field?_eq_none {value : Json} (h : value.object? = none) (key : String) :
    value.field? key = none := by
  cases value with
  | object fields => cases h
  | _ => rfl

namespace Twins

variable {node node' : Json}

theorem field? (h : Twins node node') (key : String) :
    Option.Rel (fun value value' => value.hasUniqueKeys = true ∧
      ReorderedField (key, value) (key, value')) (node.field? key) (node'.field? key) := by
  cases h with
  | other h h' =>
    rw [Json.field?_eq_none h, Json.field?_eq_none h']
    exact .none
  | schema hunique h =>
    rename_i fields fields'
    have hvalues := (Json.hasUniqueKeys_object_iff.1 hunique).2
    change Option.Rel _ (Entries.get? fields key) (Entries.get? fields' key)
    match hget : Entries.get? fields key, Entries.get? fields' key, get?_of_reordered h key with
    | _, _, .some hvalue => exact .some ⟨hvalues _ _ (Entries.mem_of_get? hget), hvalue⟩
    | _, _, .none => exact .none

theorem keyword (h : Twins node node') (keyword : Keyword) (hne : keyword ≠ .type) :
    Option.Rel Counterparts (node.field? keyword.text) (node'.field? keyword.text) := by
  match node.field? keyword.text, node'.field? keyword.text, h.field? keyword.text with
  | _, _, .some ⟨hunique, hvalue⟩ =>
    refine .some ⟨hunique, ?_⟩
    generalize hkey : keyword.text = key at hvalue
    cases hvalue with
    | value _ hvalue => exact hvalue
    | types _ => exact absurd (Keyword.text_injective (b := .type) hkey) hne
  | _, _, .none => exact .none

end Twins

def Schema.Twins (schema schema' : Schema) : Prop :=
  SchemaGraph.Twins (.object schema.fields) (.object schema'.fields)

inductive Additional.Twins : Additional → Additional → Prop
  | allowed : Twins .allowed .allowed
  | forbidden : Twins .forbidden .forbidden
  | schema {values values' : Json} (h : SchemaGraph.Twins values values') :
    Twins (.schema values) (.schema values')

inductive Form.Twins : Form → Form → Prop
  | reference (text : String) : Twins (.reference text) (.reference text)
  | enum (cases : List String) : Twins (.enum cases) (.enum cases)
  | named {names names' : List String} (h : SameTypes names names') :
    Twins (.named names) (.named names')
  | choice (step : Nat → Step) {nodes nodes' : List Json}
    (h : List.Forall₂ SchemaGraph.Twins nodes nodes') :
    Twins (.choice step nodes) (.choice step nodes')
  | anything : Twins .anything .anything

theorem SameTypes.refl (names : List String) : SameTypes names names :=
  ⟨fun _ => Iff.rfl, rfl⟩

theorem Counterparts.elements {elements elements' : List Json}
    (hunique : (Json.array elements).hasUniqueKeys = true)
    (h : List.Forall₂ Reordered elements elements') :
    List.Forall₂ SchemaGraph.Twins elements elements' := by
  have hvalues := Json.elementsHaveUniqueKeys_iff.1 hunique
  clear hunique
  induction h with
  | nil => exact .nil
  | cons hvalue _ ih =>
    refine .cons (Counterparts.twins ⟨hvalues _ (List.mem_cons_self ..), hvalue⟩) ?_
    exact ih fun value hmem => hvalues value (List.mem_cons_of_mem _ hmem)

theorem strings?_of_reordered {elements elements' : List Json}
    (h : List.Forall₂ Reordered elements elements') :
    Schema.strings? elements = Schema.strings? elements' := by
  induction h with
  | nil => rfl
  | cons hvalue _ ih =>
    cases hvalue with
    | string text =>
      unfold Schema.strings?
      rw [ih]
    | _ => rfl

theorem strings?_map_string (names : List String) :
    Schema.strings? (names.map .string) = some names := by
  induction names with
  | nil => rfl
  | cons name rest ih =>
    rw [List.map_cons]
    unfold Schema.strings?
    rw [ih]
    rfl

namespace Schema.Twins

variable {schema schema' : Schema}

theorem keyword (h : schema.Twins schema') (keyword : Keyword) (hne : keyword ≠ .type) :
    Option.Rel Counterparts (schema.get? keyword) (schema'.get? keyword) :=
  SchemaGraph.Twins.keyword h keyword hne

theorem title? (h : schema.Twins schema') : schema.title? = schema'.title? := by
  unfold Schema.title?
  match schema.get? .title, schema'.get? .title, h.keyword .title (by decide) with
  | _, _, .some ⟨_, hvalue⟩ =>
    cases hvalue with
    | _ => rfl
  | _, _, .none => rfl

theorem format? (h : schema.Twins schema') : schema.format? = schema'.format? := by
  unfold Schema.format?
  match schema.get? .format, schema'.get? .format, h.keyword .format (by decide) with
  | _, _, .some ⟨_, hvalue⟩ =>
    cases hvalue with
    | _ => rfl
  | _, _, .none => rfl

theorem reference? (h : schema.Twins schema') : Agree Eq schema.reference? schema'.reference? := by
  unfold Schema.reference?
  match schema.get? .reference, schema'.get? .reference, h.keyword .reference (by decide) with
  | _, _, .some ⟨_, hvalue⟩ =>
    cases hvalue with
    | string text => exact .values rfl
    | _ => exact .faults _ _
  | _, _, .none => exact .values rfl

theorem cases? (h : schema.Twins schema') (loc : Location) :
    Agree Eq (schema.cases? loc) (schema'.cases? loc) := by
  unfold Schema.cases?
  match schema.get? .enum, schema'.get? .enum, h.keyword .enum (by decide) with
  | _, _, .some ⟨_, hvalue⟩ =>
    cases hvalue with
    | array helements =>
      dsimp only
      rw [strings?_of_reordered helements]
      split
      . exact .values rfl
      . exact .faults _ _
    | _ => exact .faults _ _
  | _, _, .none => exact .values rfl

theorem required (h : schema.Twins schema') (loc : Location) :
    Agree Eq (schema.required loc) (schema'.required loc) := by
  unfold Schema.required
  match schema.get? .required, schema'.get? .required, h.keyword .required (by decide) with
  | _, _, .some ⟨_, hvalue⟩ =>
    cases hvalue with
    | array helements =>
      dsimp only
      rw [strings?_of_reordered helements]
      split
      . exact .values rfl
      . exact .faults _ _
    | _ => exact .faults _ _
  | _, _, .none => exact .values rfl

theorem arrayAt? (h : schema.Twins schema') (keyword : Keyword) (hne : keyword ≠ .type)
    (loc : Location) :
    Agree (Option.Rel (List.Forall₂ SchemaGraph.Twins)) (schema.arrayAt? keyword loc)
      (schema'.arrayAt? keyword loc) := by
  unfold Schema.arrayAt?
  match schema.get? keyword, schema'.get? keyword, h.keyword keyword hne with
  | _, _, .some ⟨hunique, hvalue⟩ =>
    cases hvalue with
    | array helements => exact .values (.some (Counterparts.elements hunique helements))
    | _ => exact .faults _ _
  | _, _, .none => exact .values .none

theorem properties? (h : schema.Twins schema') (loc : Location) :
    Agree (Option.Rel TwinFields) (schema.properties? loc) (schema'.properties? loc) := by
  unfold Schema.properties?
  match schema.get? .properties, schema'.get? .properties, h.keyword .properties (by decide) with
  | _, _, .some ⟨hunique, hvalue⟩ =>
    cases hvalue with
    | object hfields => exact .values (.some (.of_reordered hunique hfields))
    | _ => exact .faults _ _
  | _, _, .none => exact .values .none

theorem items? (h : schema.Twins schema') (loc : Location) :
    Agree (Option.Rel SchemaGraph.Twins) (schema.items? loc) (schema'.items? loc) := by
  unfold Schema.items?
  match schema.get? .items, schema'.get? .items, h.keyword .items (by decide) with
  | _, _, .some ⟨hunique, hvalue⟩ =>
    cases hvalue with
    | object hfields => exact .values (.some (.schema hunique hfields))
    | _ => exact .faults _ _
  | _, _, .none => exact .values .none

theorem additional? (h : schema.Twins schema') :
    Option.Rel Additional.Twins schema.additional? schema'.additional? := by
  unfold Schema.additional?
  match schema.get? .additionalProperties, schema'.get? .additionalProperties,
    h.keyword .additionalProperties (by decide) with
  | _, _, .some ⟨hunique, hvalue⟩ =>
    cases hvalue with
    | object hfields => exact .some (.schema (.schema hunique hfields))
    | bool value =>
      cases value with
      | true => exact .some .allowed
      | false => exact .some .forbidden
    | _ => exact .none
  | _, _, .none => exact .none

theorem types? (h : schema.Twins schema') (loc : Location) :
    Agree (Option.Rel SameTypes) (schema.types? loc) (schema'.types? loc) := by
  have hfield := SchemaGraph.Twins.field? h Keyword.type.text
  change Option.Rel _ (schema.get? .type) (schema'.get? .type) at hfield
  unfold Schema.types?
  match schema.get? .type, schema'.get? .type, hfield with
  | _, _, .some ⟨_, hvalue⟩ =>
    cases hvalue with
    | value _ hvalue =>
      cases hvalue with
      | string name => exact .values (.some (.refl [name]))
      | array helements =>
        dsimp only
        rw [strings?_of_reordered helements]
        split
        . exact .faults _ _
        . exact .values (.some (.refl _))
        . exact .faults _ _
      | _ => exact .faults _ _
    | @types names names' hnames =>
      dsimp only
      rw [strings?_map_string, strings?_map_string]
      cases names with
      | nil =>
        cases names' with
        | nil => exact .faults _ _
        | cons name' rest' => cases (hnames.mem name').2 (List.mem_cons_self ..)
      | cons name rest =>
        cases names' with
        | nil => cases (hnames.mem name).1 (List.mem_cons_self ..)
        | cons name' rest' => exact .values (.some hnames)
  | _, _, .none => exact .values .none

theorem alternatives? (h : schema.Twins schema') (loc : Location) :
    Agree (Option.Rel fun choice choice' => choice.1 = choice'.1 ∧
      List.Forall₂ SchemaGraph.Twins choice.2 choice'.2) (Descent.alternatives? schema loc)
      (Descent.alternatives? schema' loc) := by
  unfold Descent.alternatives?
  apply (h.arrayAt? .oneOf (by decide) loc).bind
  rintro _ _ (hnodes | _)
  . exact .values (.some ⟨rfl, hnodes⟩)
  . apply (h.arrayAt? .anyOf (by decide) loc).bind
    rintro _ _ (hnodes | _)
    . exact .values (.some ⟨rfl, hnodes⟩)
    . exact .values .none

theorem form (h : schema.Twins schema') (loc : Location) :
    Agree Form.Twins (schema.form loc) (schema'.form loc) := by
  unfold Schema.form
  apply h.reference?.bind
  rintro text? _ rfl
  cases text? with
  | some text => exact .values (.reference text)
  | none =>
    apply (h.cases? loc).bind
    rintro cases? _ rfl
    cases cases? with
    | some cases => exact .values (.enum cases)
    | none =>
      apply (h.types? loc).bind
      rintro _ _ (hnames | _)
      . exact .values (.named hnames)
      . apply (h.alternatives? loc).bind
        rintro _ _ (@⟨⟨step, nodes⟩, ⟨_, nodes'⟩, rfl, hnodes⟩ | _)
        . exact .values (.choice step hnodes)
        . exact .values .anything

end Schema.Twins

theorem Schema.ofJson_of_object?_eq_none {node : Json} (h : node.object? = none)
    (loc : Location) : Schema.ofJson node loc = .error (.notAnObject loc) := by
  cases node with
  | object fields => cases h
  | _ => rfl

namespace Twins

variable {node node' : Json}

theorem ofJson (h : Twins node node') (loc : Location) :
    Agree Schema.Twins (Schema.ofJson node loc) (Schema.ofJson node' loc) := by
  cases h with
  | schema hunique hfields => exact .values (Twins.schema hunique hfields)
  | other h h' =>
    rw [Schema.ofJson_of_object?_eq_none h, Schema.ofJson_of_object?_eq_none h']
    exact .faults _ _

theorem alternative (h : Twins node node') (loc : Location) (keyword : Keyword)
    (hne : keyword ≠ .type) (index : Nat) :
    Agree Twins (Place.alternative ⟨node, loc⟩ keyword index)
      (Place.alternative ⟨node', loc⟩ keyword index) := by
  have helements : Option.Rel (List.Forall₂ Twins)
      ((node.field? keyword.text).bind Json.array?)
      ((node'.field? keyword.text).bind Json.array?) := by
    apply rel_bind (h.keyword keyword hne)
    rintro value value' ⟨hunique, hvalue⟩
    cases hvalue with
    | array helements => exact .some (Counterparts.elements hunique helements)
    | _ => exact .none
  have hnode := rel_bind helements fun _ _ h => getElem?_of_forall₂ h index
  unfold Place.alternative
  dsimp only
  revert hnode
  generalize Option.bind _ (fun elements : List Json => elements[index]?) = node?
  generalize Option.bind _ (fun elements : List Json => elements[index]?) = node'?
  rintro (hnode | _)
  . exact .values hnode
  . exact .faults _ _

theorem inner (h : Twins node node') (loc : Location) (keyword : Keyword)
    (hne : keyword ≠ .type) :
    Agree Twins (Place.inner ⟨node, loc⟩ keyword) (Place.inner ⟨node', loc⟩ keyword) := by
  unfold Place.inner
  dsimp only
  match node.field? keyword.text, node'.field? keyword.text, h.keyword keyword hne with
  | _, _, .some ⟨hunique, hvalue⟩ =>
    cases hvalue with
    | object hfields => exact .values (.schema hunique hfields)
    | _ => exact .faults _ _
  | _, _, .none => exact .faults _ _

theorem named (h : Twins node node') (keyword : Keyword) (hne : keyword ≠ .type)
    (name : String) :
    Option.Rel Twins ((node.field? keyword.text).bind fun group => group.field? name)
      ((node'.field? keyword.text).bind fun group => group.field? name) := by
  apply rel_bind (h.keyword keyword hne)
  intro group group' hgroup
  match group.field? name, group'.field? name, hgroup.twins.field? name with
  | _, _, .some ⟨hunique, hfield⟩ => exact .some (hfield.twins hunique).2
  | _, _, .none => exact .none

theorem definition (h : Twins node node') (loc : Location) (name : String) :
    Agree Twins (Place.definition ⟨node, loc⟩ name) (Place.definition ⟨node', loc⟩ name) := by
  have hnode := h.named .definitions (by decide) name
  unfold Place.definition
  dsimp only
  revert hnode
  generalize Option.bind _ (fun group : Json => group.field? name) = node?
  generalize Option.bind _ (fun group : Json => group.field? name) = node'?
  rintro (@⟨value, value', hnode⟩ | _)
  . cases hnode with
    | schema hunique hfields => exact .values (.schema hunique hfields)
    | other h h' =>
      cases value with
      | object fields => cases h
      | _ =>
        cases value' with
        | object fields => cases h'
        | _ => exact .faults _ _
  . exact .faults _ _

theorem property (h : Twins node node') (loc : Location) (name : String) :
    Agree Twins (Place.property ⟨node, loc⟩ name) (Place.property ⟨node', loc⟩ name) := by
  have hnode := h.named .properties (by decide) name
  unfold Place.property
  dsimp only
  revert hnode
  generalize Option.bind _ (fun group : Json => group.field? name) = node?
  generalize Option.bind _ (fun group : Json => group.field? name) = node'?
  rintro (hnode | _)
  . exact .values hnode
  . exact .faults _ _

theorem inside {document document' : Json} (hdocument : Twins document document')
    (h : Twins node node') (loc : Location) (step : Step) :
    Agree Twins (Place.inside ⟨node, loc⟩ document step)
      (Place.inside ⟨node', loc⟩ document' step) := by
  cases step with
  | root => exact .values hdocument
  | definition name => exact h.definition loc name
  | oneOf index => exact h.alternative loc .oneOf (by decide) index
  | anyOf index => exact h.alternative loc .anyOf (by decide) index
  | property name => exact h.property loc name
  | additionalProperties => exact h.inner loc .additionalProperties (by decide)
  | items => exact h.inner loc .items (by decide)

theorem step {document document' : Json} (hdocument : Twins document document')
    (h : Twins node node') (loc : Location) (step : Step) :
    Agree (fun place place' => place.loc = place'.loc ∧ Twins place.node place'.node)
      (Place.step document ⟨node, loc⟩ step) (Place.step document' ⟨node', loc⟩ step) := by
  by_cases hroot : step = .root
  . subst hroot
    exact .values ⟨rfl, hdocument⟩
  . rw [Place.step_of_ne_root hroot, Place.step_of_ne_root hroot]
    apply (inside hdocument h loc step).bind
    exact fun _ _ hnode => .values ⟨rfl, hnode⟩

theorem walk {document document' : Json} (hdocument : Twins document document')
    (h : Twins node node') (loc : Location) (steps : List Step) :
    Agree (fun place place' => place.loc = place'.loc ∧ Twins place.node place'.node)
      (Place.walk document steps ⟨node, loc⟩) (Place.walk document' steps ⟨node', loc⟩) := by
  induction steps generalizing node node' loc with
  | nil => exact .values ⟨rfl, h⟩
  | cons first rest ih =>
    rw [Place.walk_cons, Place.walk_cons]
    apply (step hdocument h loc first).bind
    rintro ⟨next, loc⟩ ⟨next', _⟩ ⟨rfl, hnext⟩
    exact ih hnext loc

end Twins

end SchemaGraph
