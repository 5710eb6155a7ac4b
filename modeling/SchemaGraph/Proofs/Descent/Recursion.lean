import SchemaGraph.Proofs.Descent.OpenCycles
import SchemaGraph.Proofs.Descent.Termination

/-!
This module contains the exact condition under which a recursion through references is rejected. A
conversion that has a result leaves recorded types that are closed under the edges, so from a place
whose second conversion has a result no open cycle leads back to it. Together with the trace that a
third request leaves, this says which documents are rejected. A record on every cycle is not enough
for a document to be accepted.
-/

namespace SchemaGraph

/--
Every cycle of the document has an edge that goes into a record or into a map.
-/
def Guarded (document : Json) : Prop :=
  ∀ place, Addressed document place →
    ¬Relation.TransGen (fun p q => ∃ edge ∈ p.edges document, edge.link.isInner = false ∧
      edge.target = q) place place

theorem guarded_of_rank {document : Json} (hkeys : document.hasUniqueKeys = true)
    (rank : Location → Nat)
    (hrank : ∀ place ∈ Place.within document.size ⟨document, .root⟩,
      ∀ edge ∈ place.edges document, edge.link.isInner = false →
        rank edge.target.loc < rank place.loc) : Guarded document := by
  -- The rank falls along every walk, so no walk comes back.
  have hwalk : ∀ p q, Relation.TransGen (fun p q => ∃ edge ∈ p.edges document,
      edge.link.isInner = false ∧ edge.target = q) p q → Addressed document p →
        Addressed document q ∧ rank q.loc < rank p.loc := by
    intro p q h hp
    induction h with
    | single hstep =>
      obtain ⟨edge, hedge, hinner, rfl⟩ := hstep
      exact ⟨hp.next hkeys hedge, hrank p hp.mem_within edge hedge hinner⟩
    | tail _ hstep ih =>
      obtain ⟨edge, hedge, hinner, rfl⟩ := hstep
      have hlt := hrank _ ih.1.mem_within edge hedge hinner
      exact ⟨ih.1.next hkeys hedge, Nat.lt_trans hlt ih.2⟩
  intro place hplace hcycle
  exact Nat.lt_irrefl _ (hwalk place place hcycle hplace).2

def Event.Harmless (document : Json) (event : Event) : Prop :=
  ∀ loc node memo, event = .reentered loc node memo →
    ¬OpenCycle document (Entries.keys memo) ⟨node, loc⟩

namespace Descent

structure Closing (document : Json) (s t : State) : Prop where
  locked {loc} : loc ∈ s.active → loc ∈ s.reentered → ¬s.Knows loc → ¬t.Knows loc
  closed {q} : Addressed document q → t.Knows q.loc → ¬s.Knows q.loc →
    ∀ edge ∈ q.edges document, t.Knows edge.target.loc
  harmless {event} : event ∈ t.journal → event ∈ s.journal ∨ event.Harmless document

structure Advancing (document : Json) (place : Place) (s : State) (todo : List Edge)
    (covered : Bool) (t : State) : Prop where
  locked {loc} : loc ∈ s.active → loc ∈ s.reentered → ¬s.Knows loc → ¬t.Knows loc
  own : place.loc ∈ s.active → covered = false → ¬t.Knows place.loc
  closed {q} : Addressed document q → q.loc ≠ place.loc → t.Knows q.loc → ¬s.Knows q.loc →
    ∀ edge ∈ q.edges document, t.Knows edge.target.loc
  followed {edge} : edge ∈ place.edges document → edge ∈ todo ∨ t.Knows edge.target.loc
  cut {edge} : edge ∈ place.edges document → edge.covered = false → place.loc ∈ s.active →
    edge ∈ todo ∨ ¬OpenWalk document s.memo.keys edge.target place.loc
  harmless {event} : event ∈ t.journal → event ∈ (s.begun place).journal ∨ event.Harmless document

section Advancing

variable {document : Json} {place : Place} {s t u : State} {todo : List Edge} {covered : Bool}
  {edge : Edge}

theorem Advancing.begun (hunknown : ¬s.Knows place.loc) :
    Advancing document place s (place.edges document) false (s.begun place) where
  locked _ _ h := by rwa [State.knows_begun]
  own _ _ := by rwa [State.knows_begun]
  closed := by
    intro q _ _ hq hq'
    rw [State.knows_begun] at hq
    exact absurd hq hq'
  followed h := Or.inl h
  cut h _ _ := Or.inl h
  harmless h := Or.inl h

theorem Advancing.note (h : Advancing document place s todo covered t) {event : Event}
    (hevent : event.Harmless document) :
    Advancing document place s todo covered { t with journal := event :: t.journal } where
  locked := h.locked
  own := h.own
  closed := h.closed
  followed := h.followed
  cut := h.cut
  harmless := by
    intro event' hmem
    rcases List.mem_cons.1 hmem with rfl | hmem
    . exact Or.inr hevent
    . exact h.harmless hmem

theorem Advancing.recorded (h : Advancing document place s todo covered t) (handle : Handle)
    (hfree : ¬(place.loc ∈ s.active ∧ place.loc ∈ s.reentered)) :
    Advancing document place s todo true (t.recorded place.loc handle) where
  locked := by
    intro loc hactive hreentered hunknown
    rw [State.knows_recorded, not_or]
    refine ⟨?_, h.locked hactive hreentered hunknown⟩
    rintro rfl
    exact hfree ⟨hactive, hreentered⟩
  own _ hcovered := nomatch hcovered
  closed := by
    intro q hq hne hknows hunknown edge hedge
    rw [State.knows_recorded] at hknows ⊢
    exact Or.inr (h.closed hq hne (hknows.resolve_left hne) hunknown edge hedge)
  followed hedge :=
    (h.followed hedge).imp_right fun hknows => State.knows_recorded.2 (Or.inr hknows)
  cut := h.cut
  harmless := by
    intro event hevent
    rcases List.mem_cons.1 hevent with rfl | hevent
    . right
      rintro loc node memo ⟨⟩
    . exact h.harmless hevent

theorem Advancing.resumed (hkeys : document.hasUniqueKeys = true)
    (hplace : Addressed document place) (hframe : Frame (s.begun place) t)
    (hedge : edge ∈ place.edges document)
    (h : Advancing document place s (edge :: todo) edge.covered t) (hframe' : Frame t u)
    (hknows : u.Knows edge.target.loc) (hpost : Closing document t u) :
    Advancing document place s todo edge.covered u := by
  -- Under way for the second time the place cannot have been given a type in between.
  have hown : place.loc ∈ s.active → edge.covered = false → ¬u.Knows place.loc := by
    intro hactive hcovered
    apply hpost.locked _ _ (h.own hactive hcovered)
    . rw [hframe.active, State.mem_active_begun]
      exact Or.inl rfl
    . rw [hframe.reentered, State.mem_reentered_begun]
      exact Or.inl ⟨rfl, hactive⟩
  have hclosed : ∀ q, Addressed document q → q.loc ≠ place.loc → u.Knows q.loc →
      ¬s.Knows q.loc → ∀ edge ∈ q.edges document, u.Knows edge.target.loc := by
    intro q hq hne hqu hqs edge' hedge'
    by_cases hqt : t.Knows q.loc
    . exact hframe'.knows (h.closed hq hne hqt hqs edge' hedge')
    . exact hpost.closed hq hqu hqt edge' hedge'
  refine ⟨?_, hown, @hclosed, ?_, ?_, ?_⟩
  . intro loc hactive hreentered hunknown
    apply hpost.locked _ _ (h.locked hactive hreentered hunknown)
    . rw [hframe.active, State.mem_active_begun]
      exact Or.inr hactive
    . rw [hframe.reentered, State.mem_reentered_begun]
      exact Or.inr hreentered
  . intro edge' hedge'
    rcases h.followed hedge' with hmem | hknows'
    . rcases List.mem_cons.1 hmem with rfl | hmem
      . exact Or.inr hknows
      . exact Or.inl hmem
    . exact Or.inr (hframe'.knows hknows')
  . intro edge' hedge' hcovered hactive
    rcases h.cut hedge' hcovered hactive with hmem | hcut
    . rcases List.mem_cons.1 hmem with rfl | hmem
      . -- Along an open walk all places would have types now, but the place itself has none.
        right
        intro hwalk
        apply hown hactive hcovered
        exact hwalk.end_of_closed hkeys (hplace.next hkeys hedge')
          (fun q hq hne hfree hq' => hclosed q hq hne hq' hfree) hknows
      . exact Or.inl hmem
    . exact Or.inr hcut
  . intro event hevent
    rcases hpost.harmless hevent with hevent | hharmless
    . exact h.harmless hevent
    . exact Or.inr hharmless

theorem Advancing.harmless_begun (h : Advancing document place s [] covered t) {event : Event}
    (hevent : event ∈ (s.begun place).journal) :
    event ∈ s.journal ∨ event.Harmless document := by
  unfold State.begun at hevent
  split at hevent
  . next hactive =>
    rcases List.mem_cons.1 hevent with rfl | hevent
    . right
      rintro loc node memo ⟨⟩ ⟨-, edge, hedge, hcovered, hwalk⟩
      rcases h.cut hedge hcovered hactive with hmem | hcut
      . cases hmem
      . exact hcut hwalk
    . rcases List.mem_cons.1 hevent with rfl | hevent
      . right
        rintro loc node memo ⟨⟩
      . exact Or.inl hevent
  . rcases List.mem_cons.1 hevent with rfl | hevent
    . right
      rintro loc node memo ⟨⟩
    . rcases List.mem_cons.1 hevent with rfl | hevent
      . right
        rintro loc node memo ⟨⟩
      . exact Or.inl hevent

theorem Advancing.finished (h : Advancing document place s [] covered t)
    (hplace : Addressed document place) (handle : Handle)
    (hfree : ¬(place.loc ∈ s.active ∧ place.loc ∈ s.reentered)) :
    Closing document s ((t.ended place.loc (place.loc ∈ s.active)).recorded place.loc handle) where
  locked := by
    intro loc hactive hreentered hunknown
    rw [State.knows_recorded, State.knows_ended, not_or]
    refine ⟨?_, h.locked hactive hreentered hunknown⟩
    rintro rfl
    exact hfree ⟨hactive, hreentered⟩
  closed := by
    intro q hq hknows hunknown edge hedge
    rw [State.knows_recorded, State.knows_ended] at hknows ⊢
    right
    by_cases hloc : q.loc = place.loc
    . obtain rfl := hq.unique hplace hloc
      exact (h.followed hedge).resolve_left List.not_mem_nil
    . exact h.closed hq hloc (hknows.resolve_left hloc) hunknown edge hedge
  harmless := by
    intro event hevent
    change event ∈ .recorded place.loc handle ::
      (t.ended place.loc (place.loc ∈ s.active)).journal at hevent
    rw [State.journal_ended] at hevent
    rcases List.mem_cons.1 hevent with rfl | hevent
    . right
      rintro loc node memo ⟨⟩
    . rcases List.mem_cons.1 hevent with rfl | hevent
      . right
        rintro loc node memo ⟨⟩
      . rcases h.harmless hevent with hevent | hharmless
        . exact h.harmless_begun hevent
        . exact Or.inr hharmless

end Advancing

def closing (document : Json) : Contract where
  pre place _ := Addressed document place
  post _ s t := Closing document s t
  fault _ _ _ _ := True

theorem closing_step {document : Json} (hkeys : document.hasUniqueKeys = true) :
    Contract.Step document (closing document) (closing document) (fun _ _ _ _ => True)
      (Advancing document) where
  known := by
    intro place s _ _
    refine ⟨fun _ _ h => h, fun _ h h' => absurd h h', ?_⟩
    intro event hevent
    rcases List.mem_cons.1 hevent with rfl | hevent
    . right
      rintro loc node memo ⟨⟩
    . exact Or.inl hevent
  third _ _ _ _ := trivial
  start hs := Advancing.begun hs.unknown
  graph ht _ := ⟨ht.locked, ht.own, ht.closed, ht.followed, ht.cut, ht.harmless⟩
  merged ht := ht.note fun _ _ _ h => nomatch h
  joined ht := ht.note fun _ _ _ h => nomatch h
  record hs _ _ ht := ht.recorded _ hs.free
  call hs _ hedge _ := hs.pre.next hkeys hedge
  resume hs hframe hedge ht hframe' hknows hpost :=
    ht.resumed hkeys hs.pre hframe hedge hframe' hknows hpost
  abort _ _ _ _ _ _ := trivial
  ordinary _ _ _ _ := trivial
  finish hs _ ht _ := ht.finished hs.pre _ hs.free

theorem closing_met {document : Json} (hkeys : document.hasUniqueKeys = true) (depth : Nat) :
    (closing document).Met document (convertWithin depth) (convertWithin depth) :=
  (closing_step hkeys).met_all hkeys (makes_true document) (fun _ _ _ => trivial) depth

end Descent

namespace Conversion

variable {document : Json} {options : Options}

theorem not_blocked_of_ok (hkeys : document.hasUniqueKeys = true) {root : Handle}
    (h : (run document options).1 = .ok root) :
    ¬Blocked document (run document options).2.journal := by
  have hrun := Descent.ends_run hkeys (Descent.closing_met hkeys) options Addressed.root
  rcases hend : run document options with ⟨fault | root, t⟩
  . rw [hend] at h
    cases h
  . rintro ⟨loc, node, memo, hevent, hcycle⟩
    rcases (hrun.ok hend).2.harmless hevent with hevent | hharmless
    . cases hevent
    . exact hharmless loc node memo rfl hcycle

theorem rejected_iff_blocked (hkeys : document.hasUniqueKeys = true) (options : Options) :
    (∃ loc, (run document options).1 = .error (.unresolvedRecursion .endlessReference loc)) ↔
      Blocked document (run document options).2.journal ∧
        ∀ fault, (run document options).1 = .error fault → fault.isOrdinary = false := by
  constructor
  . rintro ⟨loc, h⟩
    refine ⟨blocked_of_error hkeys h, ?_⟩
    intro fault hfault
    rw [h] at hfault
    cases hfault
    rfl
  . rintro ⟨hblocked, hordinary⟩
    cases h : (run document options).1 with
    | ok root => exact absurd hblocked (not_blocked_of_ok hkeys h)
    | error fault =>
      have hfault := hordinary fault h
      unfold Fault.isOrdinary at hfault
      split at hfault
      . next loc => exact ⟨loc, rfl⟩
      . next loc => exact absurd h (run_ne_endlessDescent hkeys options loc)
      . cases hfault

/--
A choice between a record and an array of records, both of which refer back to the choice. The
second conversion of the choice, which the first record asks for, meets the array before it has a
record.
-/
def tangledDocument : Json :=
  .object [("oneOf", .array [
    .object [
      ("type", .string "object"),
      ("properties", .object [("x", .object [("$ref", .string "#")])])],
    .object [
      ("type", .string "array"),
      ("items", .object [
        ("type", .string "object"),
        ("properties", .object [("y", .object [("$ref", .string "#")])])])]])]

theorem run_tangledDocument : (run tangledDocument {}).1 =
    .error (.unresolvedRecursion .endlessReference .root) := by
  decide +kernel

theorem rejected_iff_blocked_tangled :
    tangledDocument.hasUniqueKeys = true ∧
      Blocked tangledDocument (run tangledDocument {}).2.journal := by
  have hkeys : tangledDocument.hasUniqueKeys = true := by decide
  exact ⟨hkeys, ((rejected_iff_blocked hkeys {}).1 ⟨.root, run_tangledDocument⟩).1⟩

def tangledOrder : List Location :=
  [⟨[.root, .oneOf 0]⟩, ⟨[.root, .oneOf 1, .items]⟩, ⟨[.root, .oneOf 1]⟩, .root,
    ⟨[.root, .oneOf 0, .property "x"]⟩, ⟨[.root, .oneOf 1, .items, .property "y"]⟩]

theorem rejected_guarded :
    tangledDocument.hasUniqueKeys = true ∧ Guarded tangledDocument ∧
      (run tangledDocument {}).1 = .error (.unresolvedRecursion .endlessReference .root) := by
  have hkeys : tangledDocument.hasUniqueKeys = true := by decide
  refine ⟨hkeys, ?_, run_tangledDocument⟩
  apply guarded_of_rank hkeys fun loc => tangledOrder.idxOf loc
  decide +kernel

end Conversion

end SchemaGraph
