import SchemaGraph.Graph.Request
import SchemaGraph.Proofs.Graph.Evolution

/-!
This module contains what a request does to a graph. It looks up a shared node or makes it, adds a
node of its own, fills in an open slot, or changes nothing. What holds along a history of requests
follows from that.
-/

namespace SchemaGraph

def Shape.opened : Shape → Shape
  | .map _ => .map .pending
  | .record _ => .record .pending
  | shape => shape

namespace Request

def fills? : Request → Option (Handle × Shape)
  | .fillMap target values => some (target, .map (.filled values))
  | .fillRecord target fields => some (target, .record (.filled (Entries.ofList fields)))
  | _ => none

def adds? : Request → Option Shape
  | .openMap => some (.map .pending)
  | .openRecord _ => some (.record .pending)
  | .record _ fields => some (.record (.filled (Entries.ofList fields)))
  | _ => none

def asks? (g : Graph) : Request → Option Key
  | .primitive kind => some (.primitive kind)
  | .string _ => some .string
  | .enum _ cases => some (.enum (distinct cases))
  | .array items => some (.array items)
  | .map values => some (.map values)
  | .union _ members => some (.union members)
  | .nullable inner _ =>
    if (g.shape? inner).any Graph.admitsNull then none else some (.nullable inner)
  | _ => none

section

variable {request : Request} {target : Handle} {shape : Shape} {g : Graph} {key : Key}

theorem becomes_of_fills? (hfills : request.fills? = some (target, shape)) :
    shape.opened.isOpen = true ∧ shape.opened.Becomes shape ∧ shape.isOpen = false := by
  cases request with
  | fillMap target values =>
    cases hfills
    exact ⟨rfl, .map values, rfl⟩
  | fillRecord target fields =>
    cases hfills
    exact ⟨rfl, .record _, rfl⟩
  | _ => cases hfills

theorem adds?_of_asks? (hasks : request.asks? g = some key) : request.adds? = none := by
  cases request <;> first | rfl | cases hasks

theorem fills?_of_asks? (hasks : request.asks? g = some key) : request.fills? = none := by
  cases request <;> first | rfl | cases hasks

theorem fills?_of_adds? (hadds : request.adds? = some shape) : request.fills? = none := by
  cases request <;> first | rfl | cases hadds

end

end Request

namespace Graph

inductive Performs (g : Graph) (request : Request) : Except Fault Handle × Graph → Prop where
  | share {key : Key} (hint : Option NameHint) (hasks : request.asks? g = some key) :
    Performs g request (.ok (g.share key key.shape hint).1, (g.share key key.shape hint).2)
  | add {shape : Shape} (hint : Option NameHint) (hadds : request.adds? = some shape) :
    Performs g request (.ok (g.push ⟨shape, hint⟩).1, (g.push ⟨shape, hint⟩).2)
  | keep {h : Handle} (hhas : g.Has h) (hasks : request.asks? g = none)
    (hadds : request.adds? = none) (hfills : request.fills? = none) :
    Performs g request (.ok h, g)
  | fill {target : Handle} {shape : Shape} (hfills : request.fills? = some (target, shape))
    (hopen : g.shape? target = some shape.opened) :
    Performs g request (.ok target, g.setShape target shape)
  | refuse {target : Handle} {shape : Shape} (hfills : request.fills? = some (target, shape))
    (hclosed : g.shape? target ≠ some shape.opened) :
    Performs g request (.error (.noOpenSlot target), g)

theorem perform_of_fills? {request : Request} {target : Handle} {shape : Shape} (g : Graph)
    (hfills : request.fills? = some (target, shape)) :
    g.perform request =
      if g.shape? target = some shape.opened then (.ok target, g.setShape target shape)
      else (.error (.noOpenSlot target), g) := by
  cases request with
  | fillMap target values =>
    cases hfills
    simp only [perform, fillMap_eq]
    split
    . next hopen => exact (if_pos hopen).symm
    . next hclosed => exact (if_neg hclosed).symm
  | fillRecord target fields =>
    cases hfills
    simp only [perform, fillRecord_eq]
    split
    . next hopen => exact (if_pos hopen).symm
    . next hclosed => exact (if_neg hclosed).symm
  | _ => cases hfills

theorem performs (g : Graph) (request : Request) : g.Performs request (g.perform request) := by
  cases hfills : request.fills? with
  | some filling =>
    rw [perform_of_fills? g hfills]
    split
    . next hopen => exact .fill hfills hopen
    . next hclosed => exact .refuse hfills hclosed
  | none =>
    cases request with
    | primitive kind => exact .share none rfl
    | string hint => exact .share (some hint) rfl
    | enum hint cases => exact .share (some hint) rfl
    | array items => exact .share none rfl
    | map values => exact .share none rfl
    | openMap => exact .add none rfl
    | openRecord hint => exact .add (some hint) rfl
    | record hint fields => exact .add (some hint) rfl
    | union hint members => exact .share (some hint) rfl
    | nullable inner hint =>
      simp only [perform, addNullable]
      split
      . next hadmits =>
        obtain ⟨shape, hshape, -⟩ := (Option.any_eq_true _ _).1 hadmits
        exact .keep (has_of_shape? hshape) (if_pos hadmits) rfl rfl
      . next hadmits => exact .share (some hint) (if_neg hadmits)
    | fillMap target values => cases hfills
    | fillRecord target fields => cases hfills

end Graph

end SchemaGraph
