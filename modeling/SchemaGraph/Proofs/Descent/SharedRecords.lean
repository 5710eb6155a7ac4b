import Mathlib.Logic.Relation
import SchemaGraph.Proofs.Descent.OpenCycles

/-!
This module contains a condition on documents under which no recursion through references is
rejected. It is not enough that there is a record on every cycle: the cycles through a place have to
share one. When the conversion of the place begins again, the way that it has come is such a cycle,
so the shared record has a type already, and every further way back to the place ends at it.
-/

namespace SchemaGraph

def Leads (document : Json) (allowed : Place → Edge → Prop) (p q : Place) : Prop :=
  ∃ edge ∈ p.edges document, allowed p edge ∧ edge.target = q

def Typed (known : List Location) (p : Place) (edge : Edge) : Prop :=
  edge.covered = true → p.loc ∈ known

def Untyped (loc : Location) (p : Place) (edge : Edge) : Prop :=
  p.loc = loc → edge.covered = false

/--
For every place there is a location with a record or a map that all cycles through the place go
into.
-/
def SharesRecords (document : Json) : Prop :=
  ∀ place, Addressed document place →
    ∃ loc, ¬Relation.TransGen (Leads document (Untyped loc)) place place

section

variable {document : Json} {known known' : List Location} {loc : Location} {p q place : Place}

theorem transGen_leads_mono {allowed allowed' : Place → Edge → Prop}
    (h : Relation.TransGen (Leads document allowed) p q)
    (hsub : ∀ p edge, allowed p edge → allowed' p edge) :
    Relation.TransGen (Leads document allowed') p q := by
  have hstep : ∀ p q, Leads document allowed p q → Leads document allowed' p q := by
    rintro p q ⟨edge, hedge, hallowed, htarget⟩
    exact ⟨edge, hedge, hsub p edge hallowed, htarget⟩
  exact Relation.TransGen.mono hstep _ _ h

theorem mem_of_typed_cycle (h : Relation.TransGen (Leads document (Typed known)) place place)
    (hshared : ¬Relation.TransGen (Leads document (Untyped loc)) place place) : loc ∈ known := by
  apply Classical.byContradiction
  intro hunknown
  apply hshared
  apply transGen_leads_mono h
  rintro p edge htyped rfl
  rw [Bool.eq_false_iff]
  exact fun hcovered => hunknown (htyped hcovered)

theorem OpenWalk.leads (hkeys : document.hasUniqueKeys = true) {last : Location}
    (h : OpenWalk document known p last) (hp : Addressed document p) (hloc : loc ∈ known) :
    ∃ q, Addressed document q ∧ q.loc = last ∧
      Relation.ReflTransGen (Leads document (Untyped loc)) p q := by
  induction h with
  | @here place _ => exact ⟨place, hp, rfl, .refl⟩
  | @step place edge last hfree hedge _ ih =>
    obtain ⟨q, hq, hlast, hrest⟩ := ih (hp.next hkeys hedge)
    have hstep : Leads document (Untyped loc) place edge.target := by
      refine ⟨edge, hedge, ?_, rfl⟩
      rintro rfl
      exact absurd hloc hfree
    exact ⟨q, hq, hlast, hrest.head hstep⟩

theorem OpenCycle.transGen (hkeys : document.hasUniqueKeys = true)
    (h : OpenCycle document known place) (hplace : Addressed document place) (hloc : loc ∈ known) :
    Relation.TransGen (Leads document (Untyped loc)) place place := by
  obtain ⟨hfree, edge, hedge, -, hwalk⟩ := h
  obtain ⟨q, hq, hlast, hrest⟩ := hwalk.leads hkeys (hplace.next hkeys hedge) hloc
  obtain rfl := hq.unique hplace hlast
  apply Relation.TransGen.head' _ hrest
  refine ⟨edge, hedge, ?_, rfl⟩
  rintro rfl
  exact absurd hloc hfree

end

def Event.Returns (document : Json) (event : Event) : Prop :=
  ∀ loc node memo, event = .reentered loc node memo → Addressed document ⟨node, loc⟩ ∧
    Relation.TransGen (Leads document (Typed (Entries.keys memo))) ⟨node, loc⟩ ⟨node, loc⟩

theorem Event.returns_of_ne {document : Json} {event : Event}
    (h : ∀ loc node memo, event ≠ .reentered loc node memo) : event.Returns document :=
  fun loc node memo heq => absurd heq (h loc node memo)

namespace Descent

def returning (document : Json) : Contract where
  pre place s := Addressed document place ∧
    (∀ q, Addressed document q → q.loc ∈ s.active →
      Relation.TransGen (Leads document (Typed s.memo.keys)) q place) ∧
    s.Notes (Event.Returns document)
  post _ _ t := t.Notes (Event.Returns document)
  fault _ _ _ t := t.Notes (Event.Returns document)

theorem returning_call {document : Json} (hkeys : document.hasUniqueKeys = true) {place : Place}
    {s t : State} {edge : Edge} (hs : (returning document).pre place s)
    (hframe : Frame (s.begun place) t) (hedge : edge ∈ place.edges document)
    (hcovered : edge.covered = true → t.Knows place.loc)
    (ht : t.Notes (Event.Returns document)) : (returning document).pre edge.target t := by
  obtain ⟨hplace, hactive, -⟩ := hs
  have hlast : Leads document (Typed t.memo.keys) place edge.target := ⟨edge, hedge, hcovered, rfl⟩
  refine ⟨hplace.next hkeys hedge, ?_, ht⟩
  intro q hq hqactive
  rw [hframe.active, State.mem_active_begun] at hqactive
  rcases hqactive with hloc | hqactive
  . obtain rfl := hq.unique hplace hloc
    exact .single hlast
  . apply Relation.TransGen.tail _ hlast
    apply transGen_leads_mono (hactive q hq hqactive)
    intro p edge htyped hcovered
    exact hframe.knows (State.knows_begun.2 (htyped hcovered))

theorem returning_step {document : Json} (hkeys : document.hasUniqueKeys = true) :
    Contract.Step document (returning document) (returning document) (fun _ _ _ _ => True)
      (fun place _ _ covered t => t.Notes (Event.Returns document) ∧
        (covered = true → t.Knows place.loc)) where
  known hs _ := hs.2.2.asked (Event.returns_of_ne (by simp))
  third hs _ _ _ := hs.2.2.asked (Event.returns_of_ne (by simp))
  start := by
    intro place s hs
    obtain ⟨hplace, hactive, hnotes⟩ := hs.pre
    refine ⟨?_, by simp⟩
    apply hnotes.begun (Event.returns_of_ne (by simp)) (Event.returns_of_ne (by simp))
    rintro hagain loc node memo ⟨⟩
    exact ⟨hplace, hactive place hplace hagain⟩
  graph ht _ := ht
  merged ht := ⟨ht.1.note (Event.returns_of_ne (by simp)), ht.2⟩
  joined ht := ⟨ht.1.note (Event.returns_of_ne (by simp)), ht.2⟩
  record _ _ _ ht :=
    ⟨ht.1.recorded (Event.returns_of_ne (by simp)), fun _ => State.knows_recorded.2 (Or.inl rfl)⟩
  call hs hframe hedge ht := returning_call hkeys hs.pre hframe hedge ht.2 ht.1
  resume _ _ _ ht hframe _ hpost := ⟨hpost, fun h => hframe.knows (ht.2 h)⟩
  abort _ _ _ _ _ hfault := hfault.ended (Event.returns_of_ne (by simp))
  ordinary _ _ ht _ := ht.1.ended (Event.returns_of_ne (by simp))
  finish _ _ ht _ :=
    (ht.1.ended (Event.returns_of_ne (by simp))).recorded (Event.returns_of_ne (by simp))

theorem returning_met {document : Json} (hkeys : document.hasUniqueKeys = true) (depth : Nat) :
    (returning document).Met document (convertWithin depth) (convertWithin depth) :=
  (returning_step hkeys).met_all hkeys (makes_true document) (fun _ _ hs => hs.2.2) depth

end Descent

namespace Conversion

theorem returns_run {document : Json} (hkeys : document.hasUniqueKeys = true) (options : Options) :
    (run document options).2.Notes (Event.Returns document) := by
  have hrun := Descent.ends_run hkeys (Descent.returning_met hkeys) options
    ⟨Addressed.root, fun _ _ hmem => (nomatch hmem), State.notes_start document⟩
  rcases h : run document options with ⟨fault | root, t⟩
  . exact hrun.error h
  . exact (hrun.ok h).2

theorem not_rejected_of_sharesRecords {document : Json} (hkeys : document.hasUniqueKeys = true)
    (hshared : SharesRecords document) (options : Options) (loc : Location) :
    (run document options).1 ≠ .error (.unresolvedRecursion .endlessReference loc) := by
  intro h
  obtain ⟨loc, node, memo, hevent, hcycle⟩ := blocked_of_error hkeys h
  obtain ⟨hplace, htyped⟩ := returns_run hkeys options _ hevent loc node memo rfl
  obtain ⟨record, hrecord⟩ := hshared _ hplace
  -- The record is on the way between the two beginnings, so it has a type and cuts the open cycle.
  exact hrecord (hcycle.transGen hkeys hplace (mem_of_typed_cycle htyped hrecord))

end Conversion

end SchemaGraph
