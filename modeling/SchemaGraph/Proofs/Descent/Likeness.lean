import SchemaGraph.Proofs.Descent.Pace

/-!
This module contains conversions in two states that are the same but for the names of the nodes,
when the schemas of two documents are related in such a way that related schemas are tied. Whatever
one of the two conversions comes to, the other one comes to as well, and the states stay the same
but for the names.
-/

namespace SchemaGraph

structure State.Like (named : Prop) (document document' : Json) (s s' : State) : Prop where
  left : s.document = document
  right : s'.document = document'
  graph : s.graph.Like named s'.graph
  memo : s.memo = s'.memo
  active : s.active = s'.active
  reentered : s.reentered = s'.reentered

variable {named : Prop} {document document' : Json}

namespace State.Like

variable {s s' : State} {place place' : Place}

theorem withGraphs (hs : s.Like named document document' s') {g g' : Graph}
    (hg : g.Like named g') :
    State.Like named document document' { s with graph := g } { s' with graph := g' } :=
  { hs with graph := hg }

theorem recorded (hs : s.Like named document document' s') (loc : Location) (h : Handle) :
    (s.recorded loc h).Like named document document' (s'.recorded loc h) where
  left := hs.left
  right := hs.right
  graph := hs.graph
  memo := congrArg (fun memo => Entries.put memo loc h) hs.memo
  active := hs.active
  reentered := hs.reentered

theorem begun (hs : s.Like named document document' s') (hloc : place.loc = place'.loc) :
    (s.begun place).Like named document document' (s'.begun place') := by
  have hagain : place.loc ∈ s.active ↔ place'.loc ∈ s'.active := by rw [hs.active, hloc]
  unfold State.begun
  by_cases h : place.loc ∈ s.active
  . rw [if_pos h, if_pos (hagain.1 h)]
    exact { hs with reentered := congrArg₂ List.cons hloc hs.reentered }
  . rw [if_neg h, if_neg (mt hagain.2 h)]
    exact { hs with active := congrArg₂ List.cons hloc hs.active }

theorem ended (hs : s.Like named document document' s') (loc : Location) {again again' : Prop}
    [Decidable again] [Decidable again'] (hagain : again ↔ again') :
    (s.ended loc again).Like named document document' (s'.ended loc again') := by
  unfold State.ended
  by_cases h : again
  . rw [if_pos h, if_pos (hagain.1 h)]
    exact { hs with reentered := congrArg (List.erase · loc) hs.reentered }
  . rw [if_neg h, if_neg (mt hagain.2 h)]
    exact { hs with active := congrArg (List.erase · loc) hs.active }

end State.Like

theorem Unification.pace_like :
    Pace named (State.Like named document document') (fun _ => State.Like named document document')
    where
  shapes hs := hs.graph.shapes
  share key _ _ hs hhint _ _ :=
    ⟨(hs.graph.share key key.shape hhint).1, hs.withGraphs (hs.graph.share key key.shape hhint).2⟩
  record _ hs hhint :=
    hs.withGraphs (hs.graph.push rfl fun hnamed => congrArg some (hhint hnamed))
  merged hs := { hs with }
  joined hs := { hs with }
  fault hs _ := hs

namespace Descent

open Effect

theorem pace_like (loc : Location) (F : Fault → Prop) :
    Pace named document document' loc F (fun _ => State.Like named document document')
      (fun _ => State.Like named document document') where
  unifying _ := Unification.pace_like
  document hs := ⟨hs.left, hs.right⟩
  push {opened s s' shape hint hint'} hs _ hhint := by
    have hpush : (s.graph.push ⟨shape, hint⟩).2.Like named (s'.graph.push ⟨shape, hint'⟩).2 :=
      hs.graph.push rfl hhint
    rw [← hs.graph.shapes.push_eq ⟨shape, hint⟩ ⟨shape, hint'⟩]
    exact (hs.withGraphs hpush).recorded loc _
  filled hs hshape _ _ := hs.withGraphs (hs.graph.setShape (Graph.has_of_shape? hshape) _)
  slot hs _ := hs
  fault hs _ := hs

theorem inPace_convertWithin {R : Json → Json → Prop}
    (hR : ∀ place place', Place.Paired R place place' →
      ∃ F, Place.Tied F R document document' place place') (depth : Nat) :
    InPace named R (fun _ => State.Like named document document')
      (fun _ => State.Like named document document') (convertWithin depth)
      (convertWithin depth) := by
  induction depth with
  | zero => exact fun _ _ _ _ _ _ _ _ _ _ hs => abreast_fail hs
  | succ depth ih =>
    intro node node' loc hint hint' opened s s' hnode hhint hs
    let place : Place := ⟨node, loc⟩
    let place' : Place := ⟨node', loc⟩
    have hloc : place.loc = place'.loc := rfl
    have hagain : loc ∈ s.active ↔ loc ∈ s'.active := by rw [hs.active]
    have hreentered : loc ∈ s.reentered ↔ loc ∈ s'.reentered := by rw [hs.reentered]
    obtain ⟨F, htied⟩ := hR place place' ⟨rfl, hnode⟩
    have hschema := (pace_like place.loc F).abreast_intoSchema ih hloc htied hhint opened
      (hs.begun hloc)
    change Abreast (visit place _) (visit place' _) _ _ s s'
    refine abreast_visit hloc (by rw [hs.memo]) hagain hreentered (fun _ => { hs with })
      { hs with } (hschema.mono ?_ ?_)
    . exact fun h t t' ht => (ht.ended loc hagain).recorded loc h
    . exact fun fault t t' ht => ht.ended loc hagain

end Descent

end SchemaGraph
