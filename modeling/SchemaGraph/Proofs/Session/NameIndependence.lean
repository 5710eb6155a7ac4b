import SchemaGraph.Conversion.Session
import SchemaGraph.Proofs.Descent.Likeness

/-!
This module contains the proof that names have no influence on types. Whatever names a conversion or
a unification is given, and whatever names the nodes have that it finds, it ends in the same way and
with the same nodes, apart from the names of these.
-/

namespace SchemaGraph

def State.SameButNames (s s' : State) : Prop :=
  s.Like False s.document s.document s'

open Effect

variable {s s' : State}

theorem State.SameButNames.refl (s : State) : s.SameButNames s :=
  ⟨rfl, rfl, .refl _, rfl, rfl, rfl⟩

theorem Descent.abreast_convert (hs : s.SameButNames s') (node : Json) (loc : Location)
    (hint hint' : NameHint) :
    Abreast (convert node loc hint) (convert node loc hint')
      (fun _ => State.Like False s.document s.document)
      (fun _ => State.Like False s.document s.document) s s' := by
  have htied : ∀ place place', Place.Paired Eq place place' →
      ∃ F, Place.Tied F Eq s.document s.document place place' := by
    rintro place place' ⟨hloc, hnode⟩
    obtain rfl : place = place' := by
      cases place
      cases place'
      cases hloc
      cases hnode
      rfl
    exact ⟨_, place.tied_self s.document⟩
  unfold convert
  apply abreast_state_bind
  rw [hs.right]
  exact inPace_convertWithin htied _ node node loc hint hint' [] s s' rfl nofun hs

theorem Unification.abreast_unify (hs : s.SameButNames s') (types : List Handle)
    (hint hint' : NameHint) (loc : Location) :
    Abreast (unify types hint loc) (unify types hint' loc)
      (fun _ => State.Like False s.document s.document)
      (fun _ => State.Like False s.document s.document) s s' := by
  by_cases htypes : types = []
  . subst htypes
    unfold Abreast
    rw [run_unify_nil, run_unify_nil]
    exact .fault hs
  . exact pace_like.inPace_unify types hint hint' loc s s' htypes nofun hs

structure Effect.SameEndButNames {α : Type} (left right : Except Fault α × State) : Prop where
  result : left.1 = right.1
  state : left.2.SameButNames right.2

theorem Effect.Abreast.sameEndButNames {α : Type} {e e' : Effect α} {document : Json}
    (h : Abreast e e' (fun _ => State.Like False document document)
      (fun _ => State.Like False document document) s s') :
    SameEndButNames (e.run s) (e'.run s') := by
  refine ⟨h.eq, ?_⟩
  have hend := h.final (P := State.Like False document document) (fun _ _ _ => id)
    (fun _ _ _ => id)
  unfold State.SameButNames
  rwa [hend.left]

namespace Conversion

theorem names_leave_types :
    (∀ document options options', Matched (fun _ => True)
      (fun c c' => c.root = c'.root ∧ c.graph.SameShapes c'.graph)
      (ofDocument document options) (ofDocument document options')) ∧
    ∀ s s', State.SameButNames s s' → ∀ hint hint' loc,
      (∀ node, SameEndButNames ((Descent.convert node loc hint).run s)
        ((Descent.convert node loc hint').run s')) ∧
      ∀ types, SameEndButNames ((Unification.unify types hint loc).run s)
        ((Unification.unify types hint' loc).run s') := by
  constructor
  . intro document options options'
    have hrun : SameEnd _ _ (Conversion.run document options) (Conversion.run document options') :=
      Descent.abreast_convert (.refl (.start document)) document .root _ _
    unfold ofDocument
    generalize Conversion.run document options = left at hrun ⊢
    generalize Conversion.run document options' = right at hrun ⊢
    cases hrun with
    | result h => exact .values ⟨rfl, h.graph.shapes⟩
    | fault _ => exact .fault trivial
  . intro s s' hs hint hint' loc
    exact ⟨fun node => (Descent.abreast_convert hs node loc hint hint').sameEndButNames,
      fun types => (Unification.abreast_unify hs types hint hint' loc).sameEndButNames⟩

def renamedDocument : Json :=
  .object [
    ("$ref", .string "#/definitions/item"),
    ("definitions", .object [("item", .object [
      ("type", .string "object"),
      ("properties", .object [("name", .object [("type", .string "string")])])])])]

theorem names_leave_types_renamed :
    let s := ((Descent.convert renamedDocument .root (.explicit "A")).run
      (.start renamedDocument)).2
    let s' := ((Descent.convert renamedDocument .root (.inferred "B")).run
      (.start renamedDocument)).2
    s.SameButNames s' ∧ s.graph.hint? ⟨0⟩ ≠ s'.graph.hint? ⟨0⟩ ∧
      SameEndButNames ((Unification.unify [⟨0⟩, ⟨1⟩] (.explicit "A") .root).run s)
        ((Unification.unify [⟨0⟩, ⟨1⟩] (.inferred "B") .root).run s') := by
  have hstart := State.SameButNames.refl (.start renamedDocument)
  have hs := ((names_leave_types.2 _ _ hstart (.explicit "A") (.inferred "B") .root).1
    renamedDocument).state
  exact ⟨hs, by decide +kernel,
    (names_leave_types.2 _ _ hs (.explicit "A") (.inferred "B") .root).2 _⟩

end Conversion

end SchemaGraph
