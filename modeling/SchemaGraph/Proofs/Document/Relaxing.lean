import SchemaGraph.Proofs.Document.Addresses
import SchemaGraph.Proofs.Document.Pruning

/-!
This module contains documents in which the keyword `oneOf` has been renamed to `anyOf`. A schema
that has at most one of the two keywords is read in the same way after that, with the renaming
carried out on everything that comes of it. Different addresses stay different, because no schema
has alternatives of both kinds.
-/

namespace SchemaGraph

def Keyword.relaxed : Keyword → Keyword
  | .oneOf => .anyOf
  | keyword => keyword

def Step.relaxed : Step → Step
  | .oneOf index => .anyOf index
  | step => step

def Location.relaxed (loc : Location) : Location :=
  ⟨loc.steps.map Step.relaxed⟩

theorem Location.relaxed_child (loc : Location) (step : Step) :
    (loc.child step).relaxed = loc.relaxed.child step.relaxed := by
  simp [relaxed, child]

def Fault.relaxed : Fault → Fault
  | .malformedReference text => .malformedReference text
  | .noDefinition name loc => .noDefinition name loc.relaxed
  | .noProperty name loc => .noProperty name loc.relaxed
  | .noAlternative keyword index loc => .noAlternative keyword.relaxed index loc.relaxed
  | .enumNotStrings loc => .enumNotStrings loc.relaxed
  | .noTypeNames loc => .noTypeNames loc.relaxed
  | .unknownType name loc => .unknownType name loc.relaxed
  | .unknownFormat format loc => .unknownFormat format loc.relaxed
  | .recordMapConflict => .recordMapConflict
  | .nothingToUnify => .nothingToUnify
  | .unresolvedRecursion cause loc => .unresolvedRecursion cause loc.relaxed
  | .badKeyword keyword loc => .badKeyword keyword.relaxed loc.relaxed
  | .notAnObject loc => .notAnObject loc.relaxed
  | .noOpenSlot target => .noOpenSlot target
  | .endlessUnification loc => .endlessUnification loc.relaxed
  | .endlessDescent loc => .endlessDescent loc.relaxed

namespace Json

def nestingAt (key : String) : Option Keyword.Nesting :=
  (Keyword.all.find? fun keyword => keyword.text = key).bind Keyword.nesting?

def relaxedKey (key : String) : String :=
  if key = Keyword.oneOf.text then Keyword.anyOf.text else key

mutual

def relaxedAs : Option Keyword.Nesting → Json → Json
  | some .schema, .object fields => .object (relaxedFields fields)
  | some .group, .object fields => .object (relaxedGroup fields)
  | some .nodes, .array nodes => .array (relaxedNodes nodes)
  | _, value => value

def relaxedFields : List (String × Json) → List (String × Json)
  | [] => []
  | (key, value) :: rest =>
    (relaxedKey key, relaxedAs (nestingAt key) value) :: relaxedFields rest

def relaxedGroup : List (String × Json) → List (String × Json)
  | [] => []
  | (name, node) :: rest => (name, relaxedAs (some .schema) node) :: relaxedGroup rest

def relaxedNodes : List Json → List Json
  | [] => []
  | node :: rest => relaxedAs (some .schema) node :: relaxedNodes rest

end

/--
The schema with `oneOf` renamed to `anyOf`, in it and in all schemas inside it.
-/
def relaxed (node : Json) : Json :=
  node.relaxedAs (some .schema)

def ChoosesOnce (node : Json) : Prop :=
  node.field? Keyword.oneOf.text = none ∨ node.field? Keyword.anyOf.text = none

instance (node : Json) : Decidable node.ChoosesOnce :=
  inferInstanceAs (Decidable (_ ∨ _))

end Json

def Place.relaxed (place : Place) : Place :=
  ⟨place.node.relaxed, place.loc.relaxed⟩

def Schema.relaxed (schema : Schema) : Schema :=
  ⟨Json.relaxedFields schema.fields⟩

def Additional.relaxed : Additional → Additional
  | .allowed => .allowed
  | .forbidden => .forbidden
  | .schema values => .schema values.relaxed

def Form.relaxed : Form → Form
  | .reference text => .reference text
  | .enum cases => .enum cases
  | .named names => .named names
  | .choice step nodes => .choice (fun index => (step index).relaxed) (Json.relaxedNodes nodes)
  | .anything => .anything

def relaxing {α β : Type} (f : α → β) (result : Except Fault α) : Except Fault β :=
  (result.map f).mapError Fault.relaxed

namespace Json

theorem nestingAt_text (keyword : Keyword) : nestingAt keyword.text = keyword.nesting? := by
  cases keyword <;> rfl

@[simp]
theorem relaxedAs_none (value : Json) : value.relaxedAs none = value := by
  simp [relaxedAs]

theorem relaxedAs_eq_self {nesting : Option Keyword.Nesting} {value : Json}
    (hobject : value.object? = none) (harray : value.array? = none) :
    value.relaxedAs nesting = value := by
  unfold relaxedAs
  split
  . cases hobject
  . cases hobject
  . cases harray
  . rfl

theorem get?_relaxedGroup (fields : List (String × Json)) (name : String) :
    Entries.get? (relaxedGroup fields) name = (Entries.get? fields name).map relaxed := by
  induction fields with
  | nil => rfl
  | cons field rest ih =>
    obtain ⟨key, node⟩ := field
    rw [relaxedGroup]
    by_cases hkey : key = name
    . simp [Entries.get?, hkey, relaxed]
    . simp [Entries.get?, hkey, ih]

theorem relaxedKey_eq_iff {key : String} {keyword : Keyword} :
    relaxedKey key = keyword.text ↔
      key = keyword.text ∧ keyword ≠ .oneOf ∨
        key = Keyword.oneOf.text ∧ keyword = .anyOf := by
  unfold relaxedKey
  split
  . next hkey =>
    subst hkey
    constructor
    . exact fun h => Or.inr ⟨rfl, (Keyword.text_injective h).symm⟩
    . rintro (⟨h, hne⟩ | ⟨-, rfl⟩)
      . exact absurd (Keyword.text_injective h).symm hne
      . rfl
  . next hkey =>
    constructor
    . rintro rfl
      exact Or.inl ⟨rfl, fun h => hkey (congrArg Keyword.text h)⟩
    . rintro (⟨h, -⟩ | ⟨h, -⟩)
      . exact h
      . exact absurd h hkey

theorem get?_relaxedFields_cons (key : String) (value : Json) (rest : List (String × Json))
    (name : String) :
    Entries.get? (relaxedFields ((key, value) :: rest)) name =
      if relaxedKey key = name then some (value.relaxedAs (nestingAt key))
      else Entries.get? (relaxedFields rest) name := by
  rw [relaxedFields]
  rfl

theorem get?_relaxedFields {keyword : Keyword} (hone : keyword ≠ .oneOf) (hany : keyword ≠ .anyOf)
    (fields : List (String × Json)) :
    Entries.get? (relaxedFields fields) keyword.text =
      (Entries.get? fields keyword.text).map (relaxedAs keyword.nesting?) := by
  induction fields with
  | nil => rfl
  | cons field rest ih =>
    obtain ⟨key, value⟩ := field
    have hkey : relaxedKey key = keyword.text ↔ key = keyword.text := by
      simp [relaxedKey_eq_iff, hone, hany]
    rw [get?_relaxedFields_cons, ih]
    by_cases h : key = keyword.text
    . rw [if_pos (hkey.2 h)]
      simp [Entries.get?, h, nestingAt_text]
    . rw [if_neg (mt hkey.1 h)]
      simp [Entries.get?, h]

theorem get?_relaxedFields_oneOf (fields : List (String × Json)) :
    Entries.get? (relaxedFields fields) Keyword.oneOf.text = none := by
  induction fields with
  | nil => rfl
  | cons field rest ih =>
    obtain ⟨key, value⟩ := field
    rw [get?_relaxedFields_cons, if_neg (by simp [relaxedKey_eq_iff]), ih]

theorem get?_relaxedFields_anyOf {fields : List (String × Json)}
    (honce : Entries.get? fields Keyword.oneOf.text = none ∨
      Entries.get? fields Keyword.anyOf.text = none) :
    Entries.get? (relaxedFields fields) Keyword.anyOf.text =
      ((Entries.get? fields Keyword.oneOf.text).or
        (Entries.get? fields Keyword.anyOf.text)).map (relaxedAs (some .nodes)) := by
  induction fields with
  | nil => rfl
  | cons field rest ih =>
    obtain ⟨key, value⟩ := field
    rw [get?_relaxedFields_cons]
    simp only [Entries.get?] at honce ⊢
    by_cases hone : key = Keyword.oneOf.text
    . have hkey : relaxedKey key = Keyword.anyOf.text := relaxedKey_eq_iff.2 (Or.inr ⟨hone, rfl⟩)
      rw [if_pos hkey, if_pos hone, hone, nestingAt_text]
      rfl
    . by_cases hany : key = Keyword.anyOf.text
      . have hkey : relaxedKey key = Keyword.anyOf.text :=
          relaxedKey_eq_iff.2 (Or.inl ⟨hany, by decide⟩)
        rw [if_neg hone, if_pos hany] at honce
        rw [if_pos hkey, if_neg hone, if_pos hany, honce.resolve_right (by simp), hany,
          nestingAt_text]
        rfl
      . have hkey : ¬relaxedKey key = Keyword.anyOf.text := by
          simp [relaxedKey_eq_iff, hone, hany]
        rw [if_neg hone, if_neg hany] at honce
        rw [if_neg hkey, if_neg hone, if_neg hany]
        exact ih honce

mutual

theorem size_relaxedAs (nesting : Option Keyword.Nesting) (value : Json) :
    (value.relaxedAs nesting).size = value.size := by
  match value with
  | .object fields =>
    match nesting with
    | some .schema => simp only [relaxedAs, size, sizeFields_relaxedFields fields]
    | some .group => simp only [relaxedAs, size, sizeFields_relaxedGroup fields]
    | some .nodes => rfl
    | none => rfl
  | .array nodes =>
    match nesting with
    | some .nodes => simp only [relaxedAs, size, sizeElements_relaxedNodes nodes]
    | some .schema => rfl
    | some .group => rfl
    | none => rfl
  | .null | .bool _ | .integer _ | .double _ | .string _ => rw [relaxedAs_eq_self rfl rfl]

theorem sizeFields_relaxedFields (fields : List (String × Json)) :
    sizeFields (relaxedFields fields) = sizeFields fields := by
  match fields with
  | [] => rfl
  | (key, value) :: rest =>
    simp only [relaxedFields, sizeFields, size_relaxedAs _ value, sizeFields_relaxedFields rest]

theorem sizeFields_relaxedGroup (fields : List (String × Json)) :
    sizeFields (relaxedGroup fields) = sizeFields fields := by
  match fields with
  | [] => rfl
  | (name, node) :: rest =>
    simp only [relaxedGroup, sizeFields, size_relaxedAs _ node, sizeFields_relaxedGroup rest]

theorem sizeElements_relaxedNodes (nodes : List Json) :
    sizeElements (relaxedNodes nodes) = sizeElements nodes := by
  match nodes with
  | [] => rfl
  | node :: rest =>
    simp only [relaxedNodes, sizeElements, size_relaxedAs _ node, sizeElements_relaxedNodes rest]

end

end Json

theorem relaxing_bind {α β γ δ : Type} (f : α → β) {g : γ → δ} {result : Except Fault α}
    {next : α → Except Fault γ} {next' : β → Except Fault δ}
    (hnext : ∀ a, next' (f a) = relaxing g (next a)) :
    relaxing f result >>= next' = relaxing g (result >>= next) := by
  cases result with
  | error fault => rfl
  | ok a => exact hnext a

theorem Reference.relaxing_ofText (text : String) : relaxing id (ofText text) = ofText text := by
  unfold ofText
  split
  . rfl
  . split
    . rfl
    . rfl

namespace Schema

variable (schema : Schema) (loc : Location)

theorem ofJson_relaxed (node : Json) :
    ofJson node.relaxed loc.relaxed = relaxing relaxed (ofJson node loc) := by
  cases node with
  | _ => rfl

theorem get?_relaxed {keyword : Keyword} (hone : keyword ≠ .oneOf) (hany : keyword ≠ .anyOf) :
    schema.relaxed.get? keyword =
      (schema.get? keyword).map (Json.relaxedAs keyword.nesting?) :=
  Json.get?_relaxedFields hone hany schema.fields

theorem get?_relaxed_plain {keyword : Keyword} (hplain : keyword.nesting? = none) :
    schema.relaxed.get? keyword = schema.get? keyword := by
  have hone : keyword ≠ .oneOf := by
    rintro rfl
    cases hplain
  have hany : keyword ≠ .anyOf := by
    rintro rfl
    cases hplain
  rw [schema.get?_relaxed hone hany, hplain]
  cases schema.get? keyword with
  | none => rfl
  | some value => simp

theorem title?_relaxed : schema.relaxed.title? = schema.title? := by
  unfold title?
  rw [schema.get?_relaxed_plain rfl]

theorem format?_relaxed : schema.relaxed.format? = schema.format? := by
  unfold format?
  rw [schema.get?_relaxed_plain rfl]

theorem reference?_relaxed : schema.relaxed.reference? = relaxing id schema.reference? := by
  unfold reference?
  rw [schema.get?_relaxed_plain rfl]
  split
  . rfl
  . rfl
  . rfl

theorem cases?_relaxed : schema.relaxed.cases? loc.relaxed = relaxing id (schema.cases? loc) := by
  unfold cases?
  rw [schema.get?_relaxed_plain rfl]
  split
  . rfl
  . split
    . rfl
    . rfl
  . rfl

theorem types?_relaxed : schema.relaxed.types? loc.relaxed = relaxing id (schema.types? loc) := by
  unfold types?
  rw [schema.get?_relaxed_plain rfl]
  split
  . rfl
  . rfl
  . split
    . rfl
    . rfl
    . rfl
  . rfl

theorem required_relaxed :
    schema.relaxed.required loc.relaxed = relaxing id (schema.required loc) := by
  unfold required
  rw [schema.get?_relaxed_plain rfl]
  split
  . rfl
  . split
    . rfl
    . rfl
  . rfl

theorem properties?_relaxed :
    schema.relaxed.properties? loc.relaxed =
      relaxing (Option.map Json.relaxedGroup) (schema.properties? loc) := by
  unfold properties?
  rw [schema.get?_relaxed (by decide) (by decide)]
  cases schema.get? .properties with
  | none => rfl
  | some value => cases value <;> rfl

theorem items?_relaxed :
    schema.relaxed.items? loc.relaxed =
      relaxing (Option.map Json.relaxed) (schema.items? loc) := by
  unfold items?
  rw [schema.get?_relaxed (by decide) (by decide)]
  cases schema.get? .items with
  | none => rfl
  | some value => cases value <;> rfl

theorem additional?_relaxed :
    schema.relaxed.additional? = schema.additional?.map Additional.relaxed := by
  unfold additional?
  rw [schema.get?_relaxed (by decide) (by decide)]
  cases schema.get? .additionalProperties with
  | none => rfl
  | some value =>
    cases value with
    | bool value => cases value <;> rfl
    | _ => rfl

variable {schema} (honce : schema.get? .oneOf = none ∨ schema.get? .anyOf = none)

include honce

theorem alternatives?_relaxed :
    Descent.alternatives? schema.relaxed loc.relaxed =
      relaxing (Option.map fun found =>
        ((fun index => (found.1 index).relaxed), Json.relaxedNodes found.2))
        (Descent.alternatives? schema loc) := by
  have hone : schema.relaxed.get? .oneOf = none := Json.get?_relaxedFields_oneOf schema.fields
  have hany : schema.relaxed.get? .anyOf =
      ((schema.get? .oneOf).or (schema.get? .anyOf)).map (Json.relaxedAs (some .nodes)) :=
    Json.get?_relaxedFields_anyOf honce
  unfold Descent.alternatives? oneOf? anyOf? arrayAt?
  rw [hone, hany]
  cases hfound : schema.get? .oneOf with
  | some value => cases value <;> rfl
  | none =>
    cases schema.get? .anyOf with
    | none => rfl
    | some value => cases value <;> rfl

theorem form_relaxed :
    schema.relaxed.form loc.relaxed = relaxing Form.relaxed (schema.form loc) := by
  unfold form
  rw [reference?_relaxed, cases?_relaxed, types?_relaxed, alternatives?_relaxed loc honce]
  apply relaxing_bind
  rintro (_ | text)
  . apply relaxing_bind
    rintro (_ | cases)
    . apply relaxing_bind
      rintro (_ | names)
      . apply relaxing_bind
        rintro (_ | ⟨step, nodes⟩)
        . rfl
        . rfl
      . rfl
    . rfl
  . rfl

end Schema

namespace Place

variable {document : Json} {place : Place}

theorem field?_relaxed {keyword : Keyword} (node : Json) (hone : keyword ≠ .oneOf)
    (hany : keyword ≠ .anyOf) :
    node.relaxed.field? keyword.text =
      (node.field? keyword.text).map (Json.relaxedAs keyword.nesting?) := by
  cases node with
  | object fields => exact Json.get?_relaxedFields hone hany fields
  | _ => rfl

theorem definition_relaxed (name : String) :
    place.relaxed.definition name = relaxing Json.relaxed (place.definition name) := by
  have hgroup : ∀ group : Json, (group.relaxedAs (some .group)).field? name =
      (group.field? name).map Json.relaxed := by
    intro group
    cases group with
    | object fields => exact Json.get?_relaxedGroup fields name
    | _ => rfl
  have hfound : (place.relaxed.node.field? Keyword.definitions.text).bind (fun group =>
        group.field? name) =
      ((place.node.field? Keyword.definitions.text).bind fun group =>
        group.field? name).map Json.relaxed := by
    unfold relaxed
    rw [field?_relaxed place.node (by decide) (by decide)]
    cases place.node.field? Keyword.definitions.text with
    | none => rfl
    | some group => exact hgroup group
  unfold definition
  rw [hfound]
  cases (place.node.field? Keyword.definitions.text).bind fun group => group.field? name with
  | none => rfl
  | some node => cases node <;> rfl

theorem step_relaxed {step : Step} (hreferring : step.IsReferring) :
    place.relaxed.step document.relaxed step = relaxing relaxed (place.step document step) := by
  rcases hreferring with rfl | ⟨name, rfl⟩
  . rfl
  . rw [step_of_ne_root (by simp), step_of_ne_root (by simp)]
    simp only [inside, definition_relaxed]
    apply relaxing_bind
    intro node
    have hloc := Location.relaxed_child place.loc (.definition name)
    exact congrArg (fun loc => Except.ok (Place.mk node.relaxed loc)) hloc.symm

theorem resolve_relaxed {target : Location} (hreferring : ∀ step ∈ target.steps, step.IsReferring) :
    place.relaxed.resolve document.relaxed target =
      relaxing relaxed (place.resolve document target) := by
  obtain ⟨steps⟩ := target
  unfold resolve
  dsimp only at hreferring ⊢
  induction steps generalizing place with
  | nil => rfl
  | cons step rest ih =>
    rw [List.forall_mem_cons] at hreferring
    rw [walk_cons, walk_cons, step_relaxed hreferring.1]
    exact relaxing_bind _ fun place => ih hreferring.2

theorem step_eq_of_relaxed (honce : place.node.ChoosesOnce) {step step' : Step}
    {next next' : Place} (hstep : place.step document step = .ok next)
    (hstep' : place.step document step' = .ok next') (heq : step.relaxed = step'.relaxed) :
    step = step' := by
  have hboth : ∀ {i j : Nat} {next next' : Place}, place.step document (.oneOf i) = .ok next →
      place.step document (.anyOf j) ≠ .ok next' := by
    intro i j next next' hone hany
    obtain ⟨nodes, hnodes, -⟩ := alternative_eq_ok.1 (inside_of_step (by simp) hone)
    obtain ⟨nodes', hnodes', -⟩ := alternative_eq_ok.1 (inside_of_step (by simp) hany)
    rcases honce with hnone | hnone
    . cases hnone.symm.trans hnodes
    . cases hnone.symm.trans hnodes'
  cases step with
  | oneOf i =>
    cases step' with
    | oneOf j => simpa [Step.relaxed] using heq
    | anyOf j => exact absurd hstep' (hboth hstep)
    | _ => cases heq
  | anyOf i =>
    cases step' with
    | oneOf j => exact absurd hstep (hboth hstep')
    | anyOf j => simpa [Step.relaxed] using heq
    | _ => cases heq
  | _ => cases step' <;> first | exact heq | cases heq

theorem steps_eq_of_relaxed
    (honce : ∀ place, Addressed document place → place.node.ChoosesOnce)
    (hplace : Addressed document place) {steps steps' : List Step} {last last' : Place}
    (hwalk : walk document steps place = .ok last)
    (hwalk' : walk document steps' place = .ok last')
    (heq : steps.map Step.relaxed = steps'.map Step.relaxed) : steps = steps' := by
  -- No schema has alternatives of both kinds.
  induction steps generalizing place steps' with
  | nil => exact (List.map_eq_nil_iff.1 heq.symm).symm
  | cons step rest ih =>
    cases steps' with
    | nil => cases heq
    | cons step' rest' =>
      rw [List.map_cons, List.map_cons, List.cons.injEq] at heq
      obtain ⟨next, hstep, hrest⟩ := walk_cons_eq_ok hwalk
      obtain ⟨next', hstep', hrest'⟩ := walk_cons_eq_ok hwalk'
      obtain rfl := step_eq_of_relaxed (honce place hplace) hstep hstep' heq.1
      rw [hstep] at hstep'
      cases hstep'
      rw [ih (hplace.step hstep) hrest hrest' heq.2]

end Place

theorem Addressed.loc_eq_of_relaxed {document : Json} {place place' : Place}
    (honce : ∀ place, Addressed document place → place.node.ChoosesOnce)
    (hplace : Addressed document place) (hplace' : Addressed document place')
    (heq : place.loc.relaxed = place'.loc.relaxed) : place.loc = place'.loc := by
  have hsteps := Place.steps_eq_of_relaxed honce Addressed.root hplace.resolves hplace'.resolves
    (congrArg Location.steps heq)
  exact congrArg Location.mk hsteps

end SchemaGraph
