import SchemaGraph.Proofs.Document.Edges

/-!
This module contains the faults that the parts of a descent can end with. Only the descent itself
finds a recursion unresolvable or runs out of depth. The readers of a schema, the walk along a
reference, the completion of an open node and the unification of types never do.
-/

namespace SchemaGraph

def Fault.isOrdinary : Fault → Bool
  | .unresolvedRecursion .endlessReference _ => false
  | .endlessDescent _ => false
  | _ => true

def Plain {α : Type} (result : Except Fault α) : Prop :=
  ∀ fault, result = .error fault → fault.isOrdinary = true

variable {α β : Type}

theorem plain_ok (a : α) : Plain (.ok a) := by
  intro fault h
  cases h

theorem plain_error {fault : Fault} (h : fault.isOrdinary = true) :
    Plain (.error fault : Except Fault α) := by
  intro fault' h'
  cases h'
  exact h

theorem plain_bind {result : Except Fault α} {next : α → Except Fault β} (h : Plain result)
    (hnext : ∀ a, Plain (next a)) : Plain (result >>= next) := by
  cases result with
  | error fault => exact plain_error (h fault rfl)
  | ok a => exact hnext a

theorem plain_map {result : Except Fault α} {f : α → β} (h : Plain result) :
    Plain (result.map f) := by
  cases result with
  | error fault => exact plain_error (h fault rfl)
  | ok a => exact plain_ok (f a)

namespace Schema

theorem plain_ofJson (value : Json) (loc : Location) : Plain (ofJson value loc) := by
  unfold ofJson
  split
  . apply plain_ok
  . exact plain_error rfl

theorem plain_reference? (s : Schema) : Plain s.reference? := by
  unfold reference?
  split
  . apply plain_ok
  . apply plain_ok
  . exact plain_error rfl

theorem plain_cases? (s : Schema) (loc : Location) : Plain (s.cases? loc) := by
  unfold cases?
  split
  . apply plain_ok
  . split
    . apply plain_ok
    . exact plain_error rfl
  . exact plain_error rfl

theorem plain_types? (s : Schema) (loc : Location) : Plain (s.types? loc) := by
  unfold types?
  split
  . apply plain_ok
  . apply plain_ok
  . split
    . exact plain_error rfl
    . apply plain_ok
    . exact plain_error rfl
  . exact plain_error rfl

theorem plain_arrayAt? (s : Schema) (keyword : Keyword) (loc : Location) :
    Plain (s.arrayAt? keyword loc) := by
  unfold arrayAt?
  split
  . apply plain_ok
  . apply plain_ok
  . exact plain_error rfl

theorem plain_properties? (s : Schema) (loc : Location) : Plain (s.properties? loc) := by
  unfold properties?
  split
  . apply plain_ok
  . apply plain_ok
  . exact plain_error rfl

theorem plain_required (s : Schema) (loc : Location) : Plain (s.required loc) := by
  unfold required
  split
  . apply plain_ok
  . split
    . apply plain_ok
    . exact plain_error rfl
  . exact plain_error rfl

theorem plain_items? (s : Schema) (loc : Location) : Plain (s.items? loc) := by
  unfold items?
  split
  . apply plain_ok
  . apply plain_ok
  . exact plain_error rfl

theorem plain_alternatives? (s : Schema) (loc : Location) :
    Plain (Descent.alternatives? s loc) := by
  unfold Descent.alternatives?
  apply plain_bind
  . apply plain_arrayAt?
  . intro nodes?
    split
    . apply plain_ok
    . apply plain_bind
      . apply plain_arrayAt?
      . intro nodes?
        split
        . apply plain_ok
        . apply plain_ok

theorem plain_form (s : Schema) (loc : Location) : Plain (s.form loc) := by
  unfold form
  apply plain_bind
  . apply plain_reference?
  . intro text?
    split
    . apply plain_ok
    . apply plain_bind
      . apply plain_cases?
      . intro cases?
        split
        . apply plain_ok
        . apply plain_bind
          . apply plain_types?
          . intro names?
            split
            . apply plain_ok
            . apply plain_bind
              . apply plain_alternatives?
              . intro nodes?
                split
                . apply plain_ok
                . apply plain_ok

end Schema

theorem Reference.plain_ofText (text : String) : Plain (ofText text) := by
  unfold ofText
  split
  . exact plain_error rfl
  . split
    . exact plain_error rfl
    . apply plain_ok

namespace Place

theorem plain_inside (place : Place) (document : Json) (step : Step) :
    Plain (place.inside document step) := by
  cases step with
  | root => apply plain_ok
  | oneOf index | anyOf index =>
    simp only [inside, alternative]
    split
    . apply plain_ok
    . exact plain_error rfl
  | definition name | property name =>
    simp only [inside, definition, property]
    split
    . apply plain_ok
    . exact plain_error rfl
  | additionalProperties | items =>
    simp only [inside, inner]
    split
    . apply plain_ok
    . exact plain_error rfl

theorem plain_step (place : Place) (document : Json) (step : Step) :
    Plain (place.step document step) := by
  unfold Place.step
  split
  . apply plain_ok
  . apply plain_bind
    . apply plain_inside
    . intro node
      apply plain_ok

theorem plain_resolve (place : Place) (document : Json) (target : Location) :
    Plain (place.resolve document target) := by
  unfold resolve
  generalize target.steps = steps
  induction steps generalizing place with
  | nil => apply plain_ok
  | cons step rest ih =>
    rw [walk_cons]
    apply plain_bind
    . apply plain_step
    . exact ih

end Place

namespace Graph

theorem plain_fillMap (g : Graph) (target values : Handle) : Plain (g.fillMap target values) := by
  unfold fillMap
  split
  . apply plain_ok
  . exact plain_error rfl

theorem plain_fillRecord (g : Graph) (target : Handle) (fields : Fields) :
    Plain (g.fillRecord target fields) := by
  unfold fillRecord
  split
  . apply plain_ok
  . exact plain_error rfl

end Graph

theorem Unification.plain_filledFields (g : Graph) (loc : Location) (hs : List Handle) :
    Plain (filledFields g loc hs) := by
  induction hs with
  | nil => apply plain_ok
  | cons h rest ih =>
    unfold filledFields
    split
    . exact plain_map ih
    . exact plain_error rfl

end SchemaGraph
