import SchemaGraph.Proofs.Descent.Contract

/-!
This module contains the proof that a conversion asks for a schema only by its address. A location
is built along the edges by the conversion and along a reference by the resolver, and both ways lead
to the same schema. So two requests for one location are requests for one schema, and a recorded
type is never taken for the type of another schema.
-/

namespace SchemaGraph

def Event.place? : Event → Option Place
  | .requested loc node => some ⟨node, loc⟩
  | .entered loc node => some ⟨node, loc⟩
  | .reentered loc node _ => some ⟨node, loc⟩
  | .left _ => none
  | .merged _ _ => none
  | .joined _ _ => none
  | .recorded _ _ => none

def Event.asks (loc : Location) : Event → Bool
  | .requested loc' _ => loc' = loc
  | _ => false

def Event.Located (document : Json) (event : Event) : Prop :=
  ∀ place, event.place? = some place → Addressed document place

theorem Event.located_of_place? {document : Json} {event : Event} {place : Place}
    (hevent : event.place? = some place) (hplace : Addressed document place) :
    event.Located document := by
  intro place' hplace'
  rw [hevent] at hplace'
  cases hplace'
  exact hplace

theorem Event.located_of_place?_eq_none {document : Json} {event : Event}
    (hevent : event.place? = none) : event.Located document := by
  intro place' hplace'
  rw [hevent] at hplace'
  cases hplace'

namespace Descent

def addressing (document : Json) : Contract where
  pre place s := Addressed document place ∧ s.Notes (Event.Located document)
  post _ _ t := t.Notes (Event.Located document)
  fault _ _ _ t := t.Notes (Event.Located document)

theorem addressing_step {document : Json} (hkeys : document.hasUniqueKeys = true) :
    Contract.Step document (addressing document) (addressing document) (fun _ _ _ _ => True)
      (fun _ _ _ _ t => t.Notes (Event.Located document)) where
  known := by
    rintro place s ⟨hplace, hs⟩ -
    exact hs.asked (Event.located_of_place? rfl hplace)
  third := by
    rintro place s ⟨hplace, hs⟩ - - -
    exact hs.asked (Event.located_of_place? rfl hplace)
  start := by
    intro place s hs
    obtain ⟨hplace, hnotes⟩ := hs.pre
    have hlocated : ∀ event : Event, event.place? = some place → event.Located document :=
      fun _ hevent => Event.located_of_place? hevent hplace
    exact hnotes.begun (hlocated _ rfl) (hlocated _ rfl) fun _ => hlocated _ rfl
  graph ht _ := ht
  merged ht := ht.note (Event.located_of_place?_eq_none rfl)
  joined ht := ht.note (Event.located_of_place?_eq_none rfl)
  record _ _ _ ht := ht.recorded (Event.located_of_place?_eq_none rfl)
  call hs _ hedge ht := ⟨hs.pre.1.next hkeys hedge, ht⟩
  resume _ _ _ _ _ _ hu := hu
  abort _ _ _ _ _ hu := hu.ended (Event.located_of_place?_eq_none rfl)
  ordinary _ _ ht _ := ht.ended (Event.located_of_place?_eq_none rfl)
  finish _ _ ht _ :=
    (ht.ended (Event.located_of_place?_eq_none rfl)).recorded (Event.located_of_place?_eq_none rfl)

theorem addressing_met {document : Json} (hkeys : document.hasUniqueKeys = true) (depth : Nat) :
    (addressing document).Met document (convertWithin depth) (convertWithin depth) :=
  (addressing_step hkeys).met_all hkeys (makes_true document) (fun _ _ hs => hs.2) depth

end Descent

namespace Conversion

variable {document : Json} {options : Options}

theorem located_run (hkeys : document.hasUniqueKeys = true) (options : Options) :
    (run document options).2.Notes (Event.Located document) := by
  have hrun := Descent.ends_run hkeys (Descent.addressing_met hkeys) options
    ⟨Addressed.root, State.notes_start document⟩
  rcases h : run document options with ⟨fault | root, t⟩
  . exact hrun.error h
  . exact (hrun.ok h).2

theorem requested_of_any (hkeys : document.hasUniqueKeys = true) {place : Place}
    (hplace : Addressed document place)
    (h : (run document options).2.journal.any (Event.asks place.loc) = true) :
    .requested place.loc place.node ∈ (run document options).2.journal := by
  obtain ⟨event, hmem, hevent⟩ := List.any_eq_true.1 h
  unfold Event.asks at hevent
  split at hevent
  . next loc node =>
    have hloc := of_decide_eq_true hevent
    have hasked := located_run hkeys options _ hmem ⟨node, loc⟩ rfl
    obtain rfl := hplace.unique hasked hloc.symm
    exact hmem
  . cases hevent

theorem request_resolves (hkeys : document.hasUniqueKeys = true) (options : Options) :
    (∀ loc node, .requested loc node ∈ (run document options).2.journal →
      (∃ tail, loc.steps = .root :: tail ∧ Step.root ∉ tail) ∧
        Place.resolve document ⟨document, .root⟩ loc = .ok ⟨node, loc⟩) ∧
    (∀ loc node node', .requested loc node ∈ (run document options).2.journal →
      .requested loc node' ∈ (run document options).2.journal → node = node') := by
  have haddressed : ∀ loc node, .requested loc node ∈ (run document options).2.journal →
      Addressed document ⟨node, loc⟩ := by
    intro loc node hevent
    exact located_run hkeys options _ hevent _ rfl
  constructor
  . intro loc node hevent
    have h := haddressed loc node hevent
    exact ⟨h.fromRoot, h.resolves⟩
  . intro loc node node' hevent hevent'
    have heq := (haddressed loc node hevent).unique (haddressed loc node' hevent') rfl
    cases heq
    rfl

def relativeDocument : Json :=
  .object [
    ("definitions", .object [
      ("outer", .object [
        ("$ref", .string "definitions/inner"),
        ("definitions", .object [("inner", .object [("$ref", .string "#")])])])]),
    ("type", .string "object"),
    ("properties", .object [("next", .object [("$ref", .string "#/definitions/outer")])])]

theorem request_resolves_relative :
    relativeDocument.hasUniqueKeys = true ∧
      .requested ⟨[.root, .definition "outer", .definition "inner"]⟩
          (.object [("$ref", .string "#")]) ∈ (run relativeDocument {}).2.journal ∧
      Place.resolve relativeDocument ⟨relativeDocument, .root⟩
          ⟨[.root, .definition "outer", .definition "inner"]⟩ =
        .ok ⟨.object [("$ref", .string "#")],
          ⟨[.root, .definition "outer", .definition "inner"]⟩⟩ := by
  have hkeys : relativeDocument.hasUniqueKeys = true := by decide
  have hplace : Addressed relativeDocument ⟨.object [("$ref", .string "#")],
      ⟨[.root, .definition "outer", .definition "inner"]⟩⟩ := ⟨⟨_, rfl, by decide⟩, rfl⟩
  have hevent : .requested ⟨[.root, .definition "outer", .definition "inner"]⟩
      (.object [("$ref", .string "#")]) ∈ (run relativeDocument {}).2.journal :=
    requested_of_any hkeys hplace (by decide +kernel)
  exact ⟨hkeys, hevent, ((request_resolves hkeys {}).1 _ _ hevent).2⟩

end Conversion

end SchemaGraph
