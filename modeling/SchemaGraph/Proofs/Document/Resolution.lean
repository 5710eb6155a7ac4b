import SchemaGraph.Proofs.Document.Addresses

/-!
This module contains the laws of the resolution of references. The steps of a reference may be taken
all at once or in two parts. A fault is that of the first step that leads nowhere, at the place that
has been reached by then. The location that an addressed place leads to is an address again, which
leads to the same place from anywhere.
-/

namespace SchemaGraph

namespace Place

variable {document : Json} {place next : Place}

theorem resolve_eq_of_root {loc : Location} {tail : List Step} (hloc : loc.steps = .root :: tail)
    (other : Place) : other.resolve document loc = place.resolve document loc := by
  unfold resolve
  rw [hloc, walk_cons, walk_cons]
  rfl

theorem addressed_of_resolve (h : resolve document ⟨document, .root⟩ place.loc = .ok place) :
    Addressed document place :=
  Addressed.root.resolve h

theorem resolve_of_addressed (h : Addressed document place) (other : Place) :
    other.resolve document place.loc = .ok place := by
  obtain ⟨tail, htail, -⟩ := h.fromRoot
  rw [← h.resolves]
  exact resolve_eq_of_root htail other

/--
Resolving a reference is resolving any first part of it and then the rest from the place that the
first part leads to, with the same place or the same fault in the end. A fault is that of a step of
the reference, taken at the place that the steps before it lead to. If the place to start from is
the one that its own location leads to from the root, then the same is true of the place that is
reached: its location starts with its only step to the root, and it leads there from any place.
-/
theorem resolution_compositional (document : Json) :
    (∀ (place : Place) (first second : List Step),
      place.resolve document ⟨first ++ second⟩ =
        (place.resolve document ⟨first⟩).bind fun middle => middle.resolve document ⟨second⟩) ∧
    (∀ (place : Place) (target : Location) (fault : Fault),
      place.resolve document target = .error fault →
      ∃ taken step rest middle, target.steps = taken ++ step :: rest ∧
        place.resolve document ⟨taken⟩ = .ok middle ∧ middle.step document step = .error fault) ∧
    ∀ (place next : Place) (target : Location),
      resolve document ⟨document, .root⟩ place.loc = .ok place →
      place.resolve document target = .ok next →
      (∃ tail, next.loc.steps = .root :: tail ∧ Step.root ∉ tail) ∧
        ∀ other : Place, other.resolve document next.loc = .ok next := by
  refine ⟨?_, ?_, ?_⟩
  . intro place first second
    exact walk_append document first second place
  . intro place target fault hfault
    exact walk_eq_error hfault
  . intro place next target hplace hnext
    have haddressed := (addressed_of_resolve hplace).resolve hnext
    exact ⟨haddressed.fromRoot, resolve_of_addressed haddressed⟩

def nestedChoice : Json :=
  .object [("properties", .object [("size", .object [("oneOf", .array [
    .object [("type", .string "null")],
    .object [("items", .object [("type", .string "integer")])]])])])]

def sizeOfNestedChoice : Place where
  node := .object [("oneOf", .array [
    .object [("type", .string "null")],
    .object [("items", .object [("type", .string "integer")])]])]
  loc := ⟨[.root, .property "size"]⟩

def itemsOfNestedChoice : Place where
  node := .object [("type", .string "integer")]
  loc := ⟨[.root, .property "size", .oneOf 1, .items]⟩

theorem resolution_compositional_detour :
    resolve nestedChoice ⟨nestedChoice, .root⟩ sizeOfNestedChoice.loc = .ok sizeOfNestedChoice ∧
      sizeOfNestedChoice.resolve nestedChoice
          ⟨[.oneOf 0, .root, .property "size", .oneOf 1, .items]⟩ = .ok itemsOfNestedChoice ∧
      ∀ other : Place,
        other.resolve nestedChoice itemsOfNestedChoice.loc = .ok itemsOfNestedChoice := by
  have hstart : resolve nestedChoice ⟨nestedChoice, .root⟩ sizeOfNestedChoice.loc =
      .ok sizeOfNestedChoice := rfl
  have hdetour : sizeOfNestedChoice.resolve nestedChoice
      ⟨[.oneOf 0, .root, .property "size", .oneOf 1, .items]⟩ = .ok itemsOfNestedChoice := rfl
  exact ⟨hstart, hdetour, ((resolution_compositional nestedChoice).2.2 _ _ _ hstart hdetour).2⟩

end Place

end SchemaGraph
