import SchemaGraph.Proofs.Descent.Contract

/-!
This module contains the proof that a conversion begins at most twice at a location: once on its own
and once inside itself. A third beginning would need a location that is marked twice already, and
after the conversion has ended the location has a recorded type.
-/

namespace SchemaGraph

def Event.begun? : Event → Option Location
  | .entered loc _ => some loc
  | .reentered loc _ _ => some loc
  | _ => none

def begunIn (journal : List Event) : List Location :=
  journal.filterMap Event.begun?

def underWay : List Event → List Location
  | [] => []
  | .entered loc _ :: rest => loc :: underWay rest
  | .reentered loc _ _ :: rest => loc :: underWay rest
  | .left loc :: rest => (underWay rest).erase loc
  | .requested _ _ :: rest => underWay rest
  | .merged _ _ :: rest => underWay rest
  | .joined _ _ :: rest => underWay rest
  | .recorded _ _ :: rest => underWay rest

theorem underWay_sublist (journal : List Event) : (underWay journal).Sublist (begunIn journal) := by
  induction journal with
  | nil => exact List.Sublist.refl _
  | cons event rest ih =>
    cases event with
    | entered loc node => exact ih.cons_cons loc
    | reentered loc node memo => exact ih.cons_cons loc
    | left loc => exact List.erase_sublist.trans ih
    | requested loc node => exact ih
    | merged loc records => exact ih
    | joined loc reads => exact ih
    | recorded loc type => exact ih

theorem begunIn_sublist {moment journal : List Event} (h : moment <:+ journal) :
    (begunIn moment).Sublist (begunIn journal) :=
  h.sublist.filterMap Event.begun?

structure State.Sparing (s : State) : Prop where
  active : s.active.Nodup
  reentered : s.reentered.Nodup
  marked {loc} : ¬s.Knows loc →
    (begunIn s.journal).count loc ≤ s.active.count loc + s.reentered.count loc
  twice loc : (begunIn s.journal).count loc ≤ 2

namespace State

variable {s t : State} {place : Place}

theorem sparing_start (document : Json) : (start document).Sparing :=
  ⟨List.nodup_nil, List.nodup_nil, fun _ => Nat.zero_le _, fun _ => Nat.zero_le _⟩

theorem Sparing.asked (h : s.Sparing) (place : Place) : (s.asked place).Sparing :=
  ⟨h.active, h.reentered, h.marked, h.twice⟩

theorem Sparing.begun (h : s.Sparing) (hunknown : ¬s.Knows place.loc)
    (hfree : ¬(place.loc ∈ s.active ∧ place.loc ∈ s.reentered)) : (s.begun place).Sparing := by
  have hcount : ∀ loc, (begunIn (s.begun place).journal).count loc =
      (begunIn s.journal).count loc + if place.loc == loc then 1 else 0 := by
    intro loc
    rw [← List.count_cons]
    unfold State.begun
    split
    . rfl
    . rfl
  have hmarks : ∀ loc, (s.begun place).active.count loc + (s.begun place).reentered.count loc =
      s.active.count loc + s.reentered.count loc + if place.loc == loc then 1 else 0 := by
    intro loc
    unfold State.begun
    split
    . show s.active.count loc + (place.loc :: s.reentered).count loc = _
      rw [List.count_cons, Nat.add_assoc]
    . show (place.loc :: s.active).count loc + s.reentered.count loc = _
      rw [List.count_cons, Nat.add_right_comm]
  have hnodup : (s.begun place).active.Nodup ∧ (s.begun place).reentered.Nodup := by
    unfold State.begun
    split
    . next hactive =>
      exact ⟨h.active, List.nodup_cons.2 ⟨fun hmem => hfree ⟨hactive, hmem⟩, h.reentered⟩⟩
    . next hactive => exact ⟨List.nodup_cons.2 ⟨hactive, h.active⟩, h.reentered⟩
  -- A beginning sets a mark, so the two sides grow alike.
  have hmarked : ∀ loc, ¬s.Knows loc → (begunIn (s.begun place).journal).count loc ≤
      (s.begun place).active.count loc + (s.begun place).reentered.count loc := by
    intro loc hloc
    have hle := h.marked hloc
    rw [hcount, hmarks]
    omega
  refine ⟨hnodup.1, hnodup.2, ?_, ?_⟩
  . intro loc hloc
    rw [State.knows_begun] at hloc
    exact hmarked loc hloc
  . intro loc
    by_cases heq : place.loc = loc
    . subst heq
      have hactive := List.nodup_iff_count.1 hnodup.1 place.loc
      have hreentered := List.nodup_iff_count.1 hnodup.2 place.loc
      have hle := hmarked _ hunknown
      omega
    . rw [hcount, if_neg (by simpa using heq)]
      exact h.twice loc

theorem Sparing.recorded (h : s.Sparing) (loc : Location) (handle : Handle) :
    (s.recorded loc handle).Sparing := by
  refine ⟨h.active, h.reentered, ?_, h.twice⟩
  intro loc' hloc'
  apply h.marked
  intro hknows
  exact hloc' (State.knows_recorded.2 (Or.inr hknows))

theorem begunIn_ended (s : State) (loc : Location) (again : Prop) [Decidable again] :
    begunIn (s.ended loc again).journal = begunIn s.journal := by
  unfold State.ended
  split
  . rfl
  . rfl

theorem Sparing.finished (h : s.Sparing) (loc : Location) (again : Prop) [Decidable again]
    (handle : Handle) : ((s.ended loc again).recorded loc handle).Sparing := by
  have hnodup : (s.ended loc again).active.Nodup ∧ (s.ended loc again).reentered.Nodup := by
    unfold State.ended
    split
    . exact ⟨h.active, h.reentered.erase loc⟩
    . exact ⟨h.active.erase loc, h.reentered⟩
  refine ⟨hnodup.1, hnodup.2, ?_, ?_⟩
  . intro loc' hloc'
    rw [State.knows_recorded, not_or, State.knows_ended] at hloc'
    have hle := h.marked hloc'.2
    show (begunIn (s.ended loc again).journal).count loc' ≤
      (s.ended loc again).active.count loc' + (s.ended loc again).reentered.count loc'
    rw [begunIn_ended]
    unfold State.ended
    split
    . show _ ≤ s.active.count loc' + (s.reentered.erase loc).count loc'
      rwa [List.count_erase_of_ne hloc'.1]
    . show _ ≤ (s.active.erase loc).count loc' + s.reentered.count loc'
      rwa [List.count_erase_of_ne hloc'.1]
  . intro loc'
    show (begunIn (s.ended loc again).journal).count loc' ≤ 2
    rw [begunIn_ended]
    exact h.twice loc'

end State

namespace Descent

def visiting : Contract where
  pre _ s := s.Sparing
  post _ _ t := t.Sparing
  fault _ _ _ t := ∀ loc, (begunIn t.journal).count loc ≤ 2

theorem visiting_step (document : Json) :
    Contract.Step document visiting visiting (fun _ _ _ _ => True)
      (fun _ _ _ _ t => t.Sparing) where
  known hs _ := hs.asked _
  third hs _ _ _ := hs.twice
  start hs := hs.pre.begun hs.unknown hs.free
  graph ht _ := ⟨ht.active, ht.reentered, ht.marked, ht.twice⟩
  merged ht := ⟨ht.active, ht.reentered, ht.marked, ht.twice⟩
  joined ht := ⟨ht.active, ht.reentered, ht.marked, ht.twice⟩
  record _ _ _ ht := ht.recorded _ _
  call _ _ _ ht := ht
  resume _ _ _ _ _ _ hu := hu
  abort := by
    intro place s todo t u fault edge _ _ _ _ _ hu loc
    rw [State.begunIn_ended]
    exact hu loc
  ordinary := by
    intro place s todo covered t fault _ _ ht _ loc
    rw [State.begunIn_ended]
    exact ht.twice loc
  finish _ _ ht _ := ht.finished _ _ _

theorem visiting_met {document : Json} (hkeys : document.hasUniqueKeys = true) (depth : Nat) :
    visiting.Met document (convertWithin depth) (convertWithin depth) :=
  (visiting_step document).met_all hkeys (makes_true document) (fun _ _ hs => hs.twice) depth

end Descent

namespace Conversion

theorem count_begunIn_le {document : Json} (hkeys : document.hasUniqueKeys = true)
    (options : Options) (loc : Location) :
    (begunIn (run document options).2.journal).count loc ≤ 2 := by
  have hrun := Descent.ends_run hkeys (Descent.visiting_met hkeys) options
    (State.sparing_start document)
  rcases h : run document options with ⟨fault | root, t⟩
  . exact hrun.error h loc
  . exact (hrun.ok h).2.twice loc

end Conversion

end SchemaGraph
