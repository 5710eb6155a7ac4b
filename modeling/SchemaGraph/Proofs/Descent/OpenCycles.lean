import SchemaGraph.Proofs.Descent.Addressing

/-!
This module contains the cycles that no recorded type cuts. When the conversion of a place is asked
for a third time, the edges followed since its second beginning lead from the place back to itself,
and none of the places on the way had a type at that beginning. Conversely a second conversion that
has a result leaves no such cycle behind.
-/

namespace SchemaGraph

inductive OpenWalk (document : Json) (known : List Location) : Place → Location → Prop where
  | here {place : Place} (h : place.loc ∉ known) : OpenWalk document known place place.loc
  | step {place : Place} {edge : Edge} {loc : Location} (h : place.loc ∉ known)
      (hedge : edge ∈ place.edges document) (hrest : OpenWalk document known edge.target loc) :
      OpenWalk document known place loc

/--
Some edge that is followed before the place has a type leads back to the place, and no known
location lies on the cycle.
-/
def OpenCycle (document : Json) (known : List Location) (place : Place) : Prop :=
  place.loc ∉ known ∧
    ∃ edge ∈ place.edges document, edge.covered = false ∧
      OpenWalk document known edge.target place.loc

def Blocked (document : Json) (journal : List Event) : Prop :=
  ∃ loc node memo, .reentered loc node memo ∈ journal ∧
    OpenCycle document (Entries.keys memo) ⟨node, loc⟩

namespace OpenWalk

variable {document : Json} {known known' : List Location} {place : Place} {loc : Location}

theorem end_not_mem (h : OpenWalk document known place loc) : loc ∉ known := by
  induction h with
  | here h => exact h
  | step _ _ _ ih => exact ih

theorem anti (h : OpenWalk document known place loc) (hsub : ∀ loc ∈ known', loc ∈ known) :
    OpenWalk document known' place loc := by
  induction h with
  | here h => exact here fun hmem => h (hsub _ hmem)
  | step h hedge _ ih => exact step (fun hmem => h (hsub _ hmem)) hedge ih

theorem end_of_closed {P : Location → Prop} (hkeys : document.hasUniqueKeys = true)
    (h : OpenWalk document known place loc) (hplace : Addressed document place)
    (hclosed : ∀ q, Addressed document q → q.loc ≠ loc → q.loc ∉ known → P q.loc →
      ∀ edge ∈ q.edges document, P edge.target.loc) (hstart : P place.loc) : P loc := by
  induction h with
  | here _ => exact hstart
  | @step place edge loc hfree hedge _ ih =>
    -- The end may be met before, and there the set need not be closed.
    by_cases heq : place.loc = loc
    . rwa [← heq]
    . exact ih (hplace.next hkeys hedge) hclosed
        (hclosed place hplace heq hfree hstart edge hedge)

end OpenWalk

theorem Blocked.mono {document : Json} {journal journal' : List Event}
    (h : Blocked document journal) (hsuffix : journal <:+ journal') :
    Blocked document journal' := by
  obtain ⟨loc, node, memo, hevent, hcycle⟩ := h
  exact ⟨loc, node, memo, hsuffix.mem hevent, hcycle⟩

namespace State

theorem mem_reentered_begun {s : State} {place : Place} {loc : Location} :
    loc ∈ (s.begun place).reentered ↔
      loc = place.loc ∧ place.loc ∈ s.active ∨ loc ∈ s.reentered := by
  unfold begun
  split
  . next hactive =>
    show loc ∈ place.loc :: s.reentered ↔ _
    simp [hactive]
  . next hactive => simp [hactive]

theorem reentered_mem_begun {s : State} {place : Place} (h : place.loc ∈ s.active) :
    .reentered place.loc place.node s.memo ∈ (s.begun place).journal := by
  unfold begun
  rw [if_pos h]
  exact List.mem_cons_self ..

theorem journal_ended {s : State} {loc : Location} {again : Prop} [Decidable again] :
    (s.ended loc again).journal = .left loc :: s.journal := by
  unfold ended
  split
  . rfl
  . rfl

end State

namespace Descent

def tracing (document : Json) : Contract where
  pre _ s := ∀ loc ∈ s.reentered, loc ∈ s.active
  post _ _ _ := True
  fault place s fault t := ∀ loc, fault = .unresolvedRecursion .endlessReference loc →
    (loc ∈ s.active ∧ loc ∈ s.reentered ∧ OpenWalk document s.memo.keys place loc) ∨
      Blocked document t.journal

theorem tracing_abort {document : Json} {place : Place} {s t u : State} {edge : Edge}
    {fault : Fault} (hs : Opening document (tracing document) place s)
    (hframe : Frame (s.begun place) t) (hedge : edge ∈ place.edges document)
    (hcovered : edge.covered = true → t.Knows place.loc)
    (hframe' : Frame t u) (hfault : (tracing document).fault edge.target t fault u) :
    (tracing document).fault place s fault (u.ended place.loc (place.loc ∈ s.active)) := by
  intro loc hloc
  have hjournal : u.journal <:+ (u.ended place.loc (place.loc ∈ s.active)).journal := by
    rw [State.journal_ended]
    exact List.suffix_cons _ _
  rcases hfault loc hloc with ⟨hactive, hreentered, hwalk⟩ | hblocked
  . rw [hframe.active, State.mem_active_begun] at hactive
    rw [hframe.reentered, State.mem_reentered_begun] at hreentered
    have hknown : ∀ loc, s.Knows loc → t.Knows loc := by
      intro loc hloc
      exact hframe.knows (State.knows_begun.2 hloc)
    have hopen : OpenWalk document s.memo.keys edge.target loc := hwalk.anti hknown
    have hpast : loc ∈ s.reentered → loc ∈ s.active := hs.pre loc
    -- The third request is one for the place itself exactly when its marks are not from before.
    by_cases hown : loc ∈ s.active ∧ loc ∈ s.reentered
    . exact Or.inl ⟨hown.1, hown.2, .step hs.unknown hedge hopen⟩
    . right
      obtain ⟨rfl, hagain⟩ : loc = place.loc ∧ place.loc ∈ s.active := by
        rcases hreentered with h | h
        . exact h
        . exact absurd ⟨hpast h, h⟩ hown
      refine ⟨place.loc, place.node, s.memo, ?_, hs.unknown, edge, hedge, ?_, hopen⟩
      . apply hjournal.mem
        apply hframe'.journal.mem
        apply hframe.journal.mem
        exact State.reentered_mem_begun hagain
      . rw [Bool.eq_false_iff]
        intro h
        exact hwalk.end_not_mem (hcovered h)
  . exact Or.inr (hblocked.mono hjournal)

theorem tracing_step (document : Json) :
    Contract.Step document (tracing document) (tracing document) (fun _ _ _ _ => True)
      (fun place _ _ covered t =>
        (∀ loc ∈ t.reentered, loc ∈ t.active) ∧ (covered = true → t.Knows place.loc)) where
  known _ _ := trivial
  third := by
    rintro place s - hunknown hactive hreentered _ ⟨⟩
    exact Or.inl ⟨hactive, hreentered, .here hunknown⟩
  start := by
    intro place s hs
    refine ⟨?_, fun h => nomatch h⟩
    intro loc hloc
    rw [State.mem_reentered_begun] at hloc
    rw [State.mem_active_begun]
    rcases hloc with ⟨h, -⟩ | h
    . exact Or.inl h
    . exact Or.inr (hs.pre loc h)
  graph ht _ := ht
  merged ht := ht
  joined ht := ht
  record _ _ _ ht := ⟨ht.1, fun _ => State.knows_recorded.2 (Or.inl rfl)⟩
  call _ _ _ ht := ht.1
  resume := by
    intro place s todo t u edge _ _ _ ht hframe _ _
    refine ⟨?_, fun h => hframe.knows (ht.2 h)⟩
    rw [hframe.active, hframe.reentered]
    exact ht.1
  abort hs hframe hedge ht hframe' hfault :=
    tracing_abort hs hframe hedge ht.2 hframe' hfault
  ordinary := by
    rintro place s todo covered t fault - - - hfault loc rfl
    cases hfault
  finish _ _ _ _ := trivial

theorem tracing_met {document : Json} (hkeys : document.hasUniqueKeys = true) (depth : Nat) :
    (tracing document).Met document (convertWithin depth) (convertWithin depth) := by
  apply (tracing_step document).met_all hkeys (makes_true document)
  rintro place s - loc ⟨⟩

end Descent

namespace Conversion

theorem blocked_of_error {document : Json} (hkeys : document.hasUniqueKeys = true)
    {options : Options} {loc : Location}
    (h : (run document options).1 = .error (.unresolvedRecursion .endlessReference loc)) :
    Blocked document (run document options).2.journal := by
  have hrun := Descent.ends_run hkeys (Descent.tracing_met hkeys) options
    (fun _ hmem => nomatch hmem)
  rcases hend : run document options with ⟨fault | root, t⟩
  . rw [hend] at h
    cases h
    rcases hrun.error hend loc rfl with ⟨hactive, -, -⟩ | hblocked
    . cases hactive
    . exact hblocked
  . rw [hend] at h
    cases h

end Conversion

end SchemaGraph
