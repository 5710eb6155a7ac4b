import SchemaGraph.Proofs.Descent.Addressing

/-!
This module contains the proof that every request is answered: when a conversion has ended with a
result, each location that it has asked for has a recorded type. No location is converted without
having been asked for.
-/

namespace SchemaGraph

def State.Heeds (s : State) : Prop :=
  ∀ loc node, .requested loc node ∈ s.journal → s.Knows loc ∨ loc ∈ s.active

def State.Announced (s : State) : Prop :=
  ∀ event ∈ s.journal, ∀ place, event.place? = some place →
    .requested place.loc place.node ∈ s.journal

section

variable {s t : State} {place : Place}

theorem State.Heeds.asked (h : s.Heeds) (hknown : s.Knows place.loc) : (s.asked place).Heeds := by
  intro loc node hmem
  rcases mem_journal_asked hmem with heq | hmem
  . cases heq
    exact Or.inl hknown
  . exact h loc node hmem

theorem State.Heeds.begun (h : s.Heeds) : (s.begun place).Heeds := by
  intro loc node hmem
  rw [knows_begun, mem_active_begun]
  rcases mem_journal_begun hmem with heq | heq | heq | hmem
  . cases heq
  . cases heq
  . cases heq
    exact Or.inr (Or.inl rfl)
  . exact (h loc node hmem).imp_right Or.inr

theorem State.Heeds.note (h : s.Heeds) {event : Event}
    (hevent : ∀ loc node, event ≠ .requested loc node) :
    State.Heeds { s with journal := event :: s.journal } := by
  intro loc node hmem
  rcases List.mem_cons.1 hmem with heq | hmem
  . exact absurd heq.symm (hevent loc node)
  . exact h loc node hmem

theorem State.Heeds.recorded (h : s.Heeds) (loc : Location) (type : Handle) :
    (s.recorded loc type).Heeds := by
  intro loc' node hmem
  rw [knows_recorded]
  rcases List.mem_cons.1 hmem with heq | hmem
  . cases heq
  . exact (h loc' node hmem).imp_left Or.inr

theorem State.Heeds.finished (h : t.Heeds) (hframe : Frame (s.begun place) t) (type : Handle) :
    ((t.ended place.loc (place.loc ∈ s.active)).recorded place.loc type).Heeds := by
  intro loc node hmem
  have hactive : ((t.ended place.loc (place.loc ∈ s.active)).recorded place.loc type).active =
    s.active := hframe.ended.active
  rw [knows_recorded, knows_ended, hactive]
  rcases List.mem_cons.1 hmem with heq | hmem
  . cases heq
  . rcases mem_journal_ended hmem with heq | hmem
    . cases heq
    . rcases h loc node hmem with hknown | hloc
      . exact Or.inl (Or.inr hknown)
      . rw [hframe.active, mem_active_begun] at hloc
        rcases hloc with rfl | hloc
        . exact Or.inl (Or.inl rfl)
        . exact Or.inr hloc

theorem State.Announced.note (h : s.Announced) {event : Event}
    (hevent : ∀ place, event.place? = some place →
      .requested place.loc place.node ∈ event :: s.journal) :
    State.Announced { s with journal := event :: s.journal } := by
  intro event' hmem place hplace
  rcases List.mem_cons.1 hmem with rfl | hmem
  . exact hevent place hplace
  . exact List.mem_cons_of_mem _ (h event' hmem place hplace)

theorem State.Announced.silent (h : s.Announced) {event : Event} (hevent : event.place? = none) :
    State.Announced { s with journal := event :: s.journal } := by
  refine h.note fun place hplace => ?_
  rw [hevent] at hplace
  cases hplace

theorem State.Announced.asked (h : s.Announced) : (s.asked place).Announced := by
  refine h.note fun place' hplace => ?_
  cases hplace
  exact List.mem_cons_self ..

theorem State.Announced.begun (h : s.Announced) : (s.begun place).Announced := by
  have hasked : (s.asked place).Announced := h.asked
  unfold State.begun
  split
  . refine hasked.note fun place' hplace => ?_
    cases hplace
    exact List.mem_cons_of_mem _ (List.mem_cons_self ..)
  . refine hasked.note fun place' hplace => ?_
    cases hplace
    exact List.mem_cons_of_mem _ (List.mem_cons_self ..)

theorem State.Announced.ended (h : s.Announced) (loc : Location) (again : Prop)
    [Decidable again] : (s.ended loc again).Announced := by
  unfold State.ended
  split
  . exact h.silent rfl
  . exact h.silent rfl

end

namespace Descent

def heeding : Contract where
  pre _ s := s.Heeds
  post _ _ t := t.Heeds
  fault _ _ _ _ := True

theorem heeding_step (document : Json) :
    Contract.Step document heeding heeding (fun _ _ _ _ => True) (fun _ _ _ _ t => t.Heeds) where
  known hs hknown := hs.asked hknown
  third _ _ _ _ := trivial
  start hs := hs.pre.begun
  graph ht _ := ht
  merged ht := ht.note (by simp)
  joined ht := ht.note (by simp)
  record _ _ _ ht := ht.recorded _ _
  call _ _ _ ht := ht
  resume _ _ _ _ _ _ hu := hu
  abort _ _ _ _ _ _ := trivial
  ordinary _ _ _ _ := trivial
  finish _ hframe ht _ := ht.finished hframe _

theorem heeding_met {document : Json} (hkeys : document.hasUniqueKeys = true) (depth : Nat) :
    heeding.Met document (convertWithin depth) (convertWithin depth) :=
  (heeding_step document).met_all hkeys (makes_true document) (fun _ _ _ => trivial) depth

def announcing : Contract where
  pre _ s := s.Announced
  post _ _ t := t.Announced
  fault _ _ _ t := t.Announced

theorem announcing_step (document : Json) :
    Contract.Step document announcing announcing (fun _ _ _ _ => True)
      (fun _ _ _ _ t => t.Announced) where
  known hs _ := hs.asked
  third hs _ _ _ := hs.asked
  start hs := hs.pre.begun
  graph ht _ := ht
  merged ht := ht.silent rfl
  joined ht := ht.silent rfl
  record _ _ _ ht := ht.silent rfl
  call _ _ _ ht := ht
  resume _ _ _ _ _ _ hu := hu
  abort _ _ _ _ _ hu := hu.ended _ _
  ordinary _ _ ht _ := ht.ended _ _
  finish _ _ ht _ := (ht.ended _ _).silent rfl

theorem announcing_met {document : Json} (hkeys : document.hasUniqueKeys = true) (depth : Nat) :
    announcing.Met document (convertWithin depth) (convertWithin depth) :=
  (announcing_step document).met_all hkeys (makes_true document) (fun _ _ hs => hs) depth

end Descent

namespace Conversion

theorem known_of_requested {document : Json} (hkeys : document.hasUniqueKeys = true)
    {options : Options} {root : Handle} {t : State} (hrun : run document options = (.ok root, t))
    {place : Place} (hasked : .requested place.loc place.node ∈ t.journal) :
    Addressed document place ∧ t.Knows place.loc := by
  have hheeds := Descent.ends_run hkeys (Descent.heeding_met hkeys) options
    (fun _ _ hmem => nomatch hmem)
  obtain ⟨hanswered, ht⟩ := hheeds.ok hrun
  have hlocated := located_run hkeys options
  rw [hrun] at hlocated
  refine ⟨hlocated _ hasked place rfl, (ht _ _ hasked).resolve_right ?_⟩
  -- No location is under way in the end.
  rw [hanswered.frame.active]
  exact List.not_mem_nil

theorem announced_run {document : Json} (hkeys : document.hasUniqueKeys = true)
    (options : Options) : (run document options).2.Announced := by
  have hrun := Descent.ends_run hkeys (Descent.announcing_met hkeys) options
    (fun _ hmem => nomatch hmem)
  exact hrun.final (fun _ _ h => h.2) (fun _ _ h => h)

end Conversion

end SchemaGraph
