import Mathlib.Logic.Relation
import SchemaGraph.Proofs.Descent.Recursion
import SchemaGraph.Proofs.Descent.Translation

/-!
This module contains the proof that a cycle without a record and a map on it is always noticed. A
place on such a cycle gets a type only when its conversion is over, and by then the next place on
the cycle has one. So none of them can be the first to get a type, and a conversion that asks for
one of them has no result.
-/

namespace SchemaGraph

def Asks (document : Json) (p q : Place) : Prop :=
  ∃ edge ∈ p.edges document, edge.target = q

def Turns (document : Json) (p q : Place) : Prop :=
  ∃ edge ∈ p.edges document, edge.link.isInner = false ∧ edge.target = q

def Endless (document : Json) (loc : Location) : Prop :=
  ∃ place, Addressed document place ∧ place.loc = loc ∧
    Relation.TransGen (Turns document) place place

section

variable {document : Json} {place : Place} {loc : Location}

theorem Turns.asks {p q : Place} (h : Turns document p q) : Asks document p q := by
  obtain ⟨edge, hedge, -, htarget⟩ := h
  exact ⟨edge, hedge, htarget⟩

theorem Place.isInner_of_objectEdges {schema : Schema} {edge : Edge}
    (hedge : edge ∈ place.objectEdges schema) : edge.link.isInner = true := by
  unfold objectEdges at hedge
  split at hedge
  . obtain ⟨field, -, rfl⟩ := List.mem_map.1 hedge
    rfl
  . split at hedge
    . rw [List.mem_singleton] at hedge
      rw [hedge]
      rfl
    . cases hedge
  . cases hedge

theorem ListsObjectsAlone.isInner (halone : ListsObjectsAlone document)
    (hplace : Addressed document place) (hopens : place.Opens) {edge : Edge}
    (hedge : edge ∈ place.edges document) : edge.link.isInner = true := by
  obtain ⟨schema, names, hschema, hform, name, hname, hname'⟩ := hopens
  obtain rfl := Place.name_of_opens hname'
  have hall := halone.single hplace hschema (Schema.has_of_form hform).2.2 hname
  rw [Place.edges_of_form hschema hform] at hedge
  obtain ⟨covered, name, hmem, hnamed⟩ := Place.mem_typeEdges hedge
  obtain rfl := hall name (mem_distinct.1 hmem)
  exact Place.isInner_of_objectEdges hnamed

theorem Endless.turns (hkeys : document.hasUniqueKeys = true)
    (halone : ListsObjectsAlone document) (hplace : Addressed document place)
    (hendless : Endless document place.loc) :
    ¬place.Opens ∧ ∃ edge ∈ place.edges document, Endless document edge.target.loc := by
  obtain ⟨place', hplace', hloc, hcycle⟩ := hendless
  obtain rfl := hplace'.unique hplace hloc
  obtain ⟨next, ⟨edge, hedge, hinner, rfl⟩, hrest⟩ := Relation.TransGen.head'_iff.1 hcycle
  constructor
  . intro hopens
    rw [halone.isInner hplace hopens hedge] at hinner
    cases hinner
  . exact ⟨edge, hedge, edge.target, hplace.next hkeys hedge, rfl,
      Relation.TransGen.tail' hrest ⟨edge, hedge, hinner, rfl⟩⟩

end

namespace Descent

def barring (document : Json) : Contract where
  pre place s := Addressed document place ∧ ∀ loc, Endless document loc → ¬s.Knows loc
  post _ _ t := ∀ loc, Endless document loc → ¬t.Knows loc
  fault _ _ _ _ := True

theorem barring_step {document : Json} (hkeys : document.hasUniqueKeys = true)
    (halone : ListsObjectsAlone document) :
    Contract.Step document (barring document) (barring document) (fun _ _ _ _ => True)
      (fun place _ todo _ t => (∀ loc, Endless document loc → ¬t.Knows loc) ∧
        ∀ edge ∈ place.edges document, edge ∈ todo ∨ t.Knows edge.target.loc) where
  known hs _ := hs.2
  third _ _ _ _ := trivial
  start := by
    intro place s hs
    refine ⟨?_, fun edge hedge => Or.inl hedge⟩
    intro loc hloc
    rw [State.knows_begun]
    exact hs.pre.2 loc hloc
  graph ht _ := ht
  merged ht := ht
  joined ht := ht
  record := by
    rintro place s todo t h hs hopens - ⟨hbarred, hfollowed⟩
    constructor
    . intro loc hloc hknows
      rcases State.knows_recorded.1 hknows with rfl | hknows
      . exact (hloc.turns hkeys halone hs.pre.1).1 hopens
      . exact hbarred loc hloc hknows
    . intro edge hedge
      exact (hfollowed edge hedge).imp_right fun hknows => State.knows_recorded.2 (Or.inr hknows)
  call hs _ hedge ht := ⟨hs.pre.1.next hkeys hedge, ht.1⟩
  resume := by
    rintro place s todo t u edge - - - ⟨-, hfollowed⟩ hframe hknows hbarred
    refine ⟨hbarred, ?_⟩
    intro edge' hedge'
    rcases hfollowed edge' hedge' with hmem | hknows'
    . rcases List.mem_cons.1 hmem with rfl | hmem
      . exact Or.inr hknows
      . exact Or.inl hmem
    . exact Or.inr (hframe.knows hknows')
  abort _ _ _ _ _ _ := trivial
  ordinary _ _ _ _ := trivial
  finish := by
    rintro place s covered t h hs - ⟨hbarred, hfollowed⟩ - loc hloc hknows
    rw [State.knows_recorded, State.knows_ended] at hknows
    rcases hknows with rfl | hknows
    . -- The next place on the cycle would have a type already.
      obtain ⟨-, edge, hedge, hnext⟩ := hloc.turns hkeys halone hs.pre.1
      exact hbarred _ hnext ((hfollowed edge hedge).resolve_left List.not_mem_nil)
    . exact hbarred loc hloc hknows

theorem barring_met {document : Json} (hkeys : document.hasUniqueKeys = true)
    (halone : ListsObjectsAlone document) (depth : Nat) :
    (barring document).Met document (convertWithin depth) (convertWithin depth) :=
  (barring_step hkeys halone).met_all hkeys (makes_true document) (fun _ _ _ => trivial) depth

end Descent

namespace Conversion

variable {document : Json} {options : Options}

theorem known_of_reachable (hkeys : document.hasUniqueKeys = true) {root : Handle} {t : State}
    (hrun : run document options = (.ok root, t)) {place : Place}
    (hreach : Relation.ReflTransGen (Asks document) ⟨document, .root⟩ place) :
    Addressed document place ∧ t.Knows place.loc := by
  obtain ⟨hanswered, hclosing⟩ :=
    (Descent.ends_run hkeys (Descent.closing_met hkeys) options Addressed.root).ok hrun
  induction hreach with
  | refl => exact ⟨Addressed.root, State.knows_iff.2 ⟨root, hanswered.memo⟩⟩
  | tail _ hstep ih =>
    obtain ⟨edge, hedge, rfl⟩ := hstep
    obtain ⟨hplace, hknows⟩ := ih
    exact ⟨hplace.next hkeys hedge, hclosing.closed hplace hknows List.not_mem_nil edge hedge⟩

theorem ne_ok_of_turning (hkeys : document.hasUniqueKeys = true)
    (halone : ListsObjectsAlone document) (options : Options) {place : Place}
    (hreach : Relation.ReflTransGen (Asks document) ⟨document, .root⟩ place)
    (hcycle : Relation.TransGen (Turns document) place place) (root : Handle) :
    (run document options).1 ≠ .ok root := by
  intro hok
  have hrun : run document options = (.ok root, (run document options).2) := by rw [← hok]
  obtain ⟨hplace, hknows⟩ := known_of_reachable hkeys hrun hreach
  have hbarring := Descent.ends_run hkeys (Descent.barring_met hkeys halone) options
    ⟨Addressed.root, fun _ _ => List.not_mem_nil⟩
  exact (hbarring.ok hrun).2 place.loc ⟨place, hplace, rfl, hcycle⟩ hknows

def burrowDocument : Json :=
  .object [
    ("type", .array [.string "array", .string "null"]),
    ("items", .object [
      ("oneOf", .array [.object [("type", .string "null")], .object [("$ref", .string "#")]])])]

theorem ne_ok_of_turning_burrow :
    burrowDocument.hasUniqueKeys = true ∧ ListsObjectsAlone burrowDocument ∧
      ∃ place, Relation.ReflTransGen (Asks burrowDocument) ⟨burrowDocument, .root⟩ place ∧
        Relation.TransGen (Turns burrowDocument) place place ∧
        ∀ root, (run burrowDocument {}).1 ≠ .ok root := by
  have hkeys : burrowDocument.hasUniqueKeys = true := by decide
  have halone : ListsObjectsAlone burrowDocument :=
    (Tame.of_all (by decide)).listsObjectsAlone
  let again : Json := .object [("$ref", .string "#")]
  let element : Json := .object [("oneOf", .array [.object [("type", .string "null")], again])]
  have hitems : Turns burrowDocument ⟨burrowDocument, .root⟩ ⟨element, ⟨[.root, .items]⟩⟩ :=
    ⟨_, List.mem_of_getElem? (i := 0) rfl, rfl, rfl⟩
  have hsecond : Turns burrowDocument ⟨element, ⟨[.root, .items]⟩⟩
      ⟨again, ⟨[.root, .items, .oneOf 1]⟩⟩ :=
    ⟨_, List.mem_of_getElem? (i := 1) rfl, rfl, rfl⟩
  have hback : Turns burrowDocument ⟨again, ⟨[.root, .items, .oneOf 1]⟩⟩
      ⟨burrowDocument, .root⟩ :=
    ⟨_, List.mem_of_getElem? (i := 0) rfl, rfl, rfl⟩
  have hreach : Relation.ReflTransGen (Asks burrowDocument) ⟨burrowDocument, .root⟩
      ⟨element, ⟨[.root, .items]⟩⟩ := .single hitems.asks
  have hcycle : Relation.TransGen (Turns burrowDocument) ⟨element, ⟨[.root, .items]⟩⟩
      ⟨element, ⟨[.root, .items]⟩⟩ := .head hsecond (.head hback (.single hitems))
  exact ⟨hkeys, halone, _, hreach, hcycle, ne_ok_of_turning hkeys halone {} hreach hcycle⟩

end Conversion

end SchemaGraph
