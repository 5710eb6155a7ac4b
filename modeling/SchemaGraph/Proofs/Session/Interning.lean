import SchemaGraph.Proofs.Graph.Interning
import SchemaGraph.Proofs.Session.Upheld

/-!
This module contains the proof that sharing stays exact throughout a session, also when a step of it
fails: the table has every node that is to be shared, and no structure twice.
-/

namespace SchemaGraph

namespace Unification

theorem upkeep_interned :
    Upkeep (fun _ => True) (fun s => s.graph.Interned) (fun _ s => s.graph.Interned) where
  children _ _ _ _ _ := trivial
  share hs _ _ := ⟨trivial, hs.share (Graph.findsOrMakes_share _ _ _ _)⟩
  record _ hs _ := ⟨trivial, hs.push _ (Shape.isUnshared_record _)⟩
  merged hs := hs
  joined hs _ := hs
  clash hs _ := hs

end Unification

namespace Descent

open Effect

structure Interning (document : Json) (s : State) : Prop where
  document : s.document = document
  interned : s.graph.Interned

variable {document : Json} {s : State}

theorem upkeep_interning (document : Json) (loc : Location) :
    Upkeep document loc (fun _ => True) (fun _ s => Interning document s)
      (fun _ s => s.graph.Interned) where
  closed _ := {
    children _ _ _ _ _ := trivial
    share hs _ _ := ⟨trivial, hs.document, hs.interned.share (Graph.findsOrMakes_share _ _ _ _)⟩
    record _ hs _ := ⟨trivial, hs.document, hs.interned.push _ (Shape.isUnshared_record _)⟩
    merged hs := ⟨hs.document, hs.interned⟩
    joined hs _ := ⟨hs.document, hs.interned⟩
    clash hs _ := hs.interned }
  document hs := hs.document
  push hopen hs :=
    ⟨trivial, hs.document, hs.interned.push _ (Shape.isUnshared_of_isOpen hopen)⟩
  filled := by
    intro _ s h shape hs hfills _ _
    obtain ⟨old, hold, hopen⟩ := hfills.pending
    exact ⟨hs.document, hs.interned.fills hfills ((hfills.becomes hold).isUnshared hopen)⟩
  fault hs := hs.interned

theorem interning_convertWithin (depth : Nat) (place : Place) (hint : NameHint)
    (hs : Interning document s) :
    Ends (convertWithin depth place.node place.loc hint) (fun _ t => Interning document t)
      (fun _ t => t.graph.Interned) s := by
  induction depth generalizing place hint s with
  | zero => exact alike_fail hs.interned
  | succ depth ih =>
    rw [convertWithin_succ, intoSchema_eq_schemaWith]
    apply alike_visit
    . exact fun _ _ => ⟨hs.document, hs.interned⟩
    . exact fun _ _ _ => hs.interned
    . intro _ _
      have hbegun : Interning document (s.begun place) := by
        refine ⟨(s.begun_document place).trans hs.document, ?_⟩
        rw [s.begun_graph]
        exact hs.interned
      have htends : Tends (place.edges document) (fun _ => True) (fun _ s => Interning document s)
          (fun _ s => s.graph.Interned) (convertWithin depth) (convertWithin depth) :=
        fun edge _ hint _ t ht =>
          (ih edge.target hint ht).mono (fun _ _ hu => ⟨trivial, hu⟩) (fun _ _ => id)
      have hupkeep := upkeep_interning document place.loc
      apply (hupkeep.alike_schemaWith
        (fun opened => (hupkeep.closed opened).upholds_unify fun _ _ ht => ht.interned) hint htends
        hbegun).mono
      . rintro h t ⟨-, ht⟩
        refine ⟨(t.ended_document _ _).trans ht.document, ?_⟩
        rw [State.recorded, t.ended_graph]
        exact ht.interned
      . intro fault t ht
        rwa [t.ended_graph]
      -- It does not matter which nodes are open.
      . exact []

theorem interned_convert (place : Place) (hint : NameHint) (hs : s.graph.Interned) :
    ((convert place.node place.loc hint).run s).2.graph.Interned := by
  have hends : Ends (convert place.node place.loc hint) (fun _ t => t.graph.Interned)
      (fun _ t => t.graph.Interned) s := by
    unfold convert
    apply alike_state_bind
    apply (interning_convertWithin _ place hint ⟨rfl, hs⟩).mono
    . exact fun _ _ ht => ht.interned
    . exact fun _ _ => id
  exact hends.final (fun _ _ => id) (fun _ _ => id)

end Descent

theorem Conversion.interned_run (document : Json) (options : Options) :
    (Conversion.run document options).2.graph.Interned :=
  Descent.interned_convert ⟨document, .root⟩ _ (s := .start document) Graph.interned_empty

theorem SessionStep.interned {s : State} (step : SessionStep) (hs : s.graph.Interned) :
    (step.effect.run s).2.graph.Interned := by
  cases step with
  | convert node loc hint => exact Descent.interned_convert ⟨node, loc⟩ hint hs
  | unify types hint loc =>
    have hends := Unification.upkeep_interned.upholds_unify (fun _ _ => id) types hint loc s
      (fun _ _ => trivial) hs
    exact hends.final (fun _ _ h => h.2) (fun _ _ => id)
  | nullable type hint => exact (Unification.upkeep_interned.addNullable hint trivial hs).2

theorem State.Interned.after {s : State} (hs : s.graph.Interned) (steps : List SessionStep) :
    (s.after steps).graph.Interned := by
  induction steps generalizing s with
  | nil => exact hs
  | cons step rest ih => exact ih (step.interned hs)

theorem State.interned_after (document : Json) (steps : List SessionStep) :
    ((State.start document).after steps).graph.Interned :=
  State.Interned.after (s := .start document) Graph.interned_empty steps

end SchemaGraph
