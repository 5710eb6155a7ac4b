import SchemaGraph.Proofs.Session.Interning
import SchemaGraph.Proofs.Unification.Settled

/-!
This module contains the proof that a unification may be grouped. Some types may be unified first and
the result of that together with the others. As long as no records are merged, unifying all of them
at once gives the same type then, and it is there already.
-/

namespace SchemaGraph

namespace Conversion

open Unification

theorem unify_grouped {document : Json} (hkeys : document.hasUniqueKeys = true)
    {steps : List SessionStep} (hsteps : (State.start document).Takes steps)
    {types others : List Handle} (htypes : types ≠ [])
    (hhas : ∀ h ∈ types ++ others, ((State.start document).after steps).graph.Has h)
    {hint hint' hint'' : NameHint} {loc loc' loc'' : Location} {u r b : Handle} {s t v : State}
    (hu : (unify types hint loc).run ((State.start document).after steps) = (.ok u, s))
    (hr : (unify (u :: others) hint' loc').run s = (.ok r, t))
    (hb : (unify (types ++ others) hint'' loc'').run t = (.ok b, v))
    (hmerges : s.merges = ((State.start document).after steps).merges)
    (hmerges' : t.merges = s.merges) :
    b = r ∧ v.graph.size = t.graph.size ∧ t.graph.SameShapes v.graph := by
  have hsound := ((State.valid_start document).after hkeys hsteps).sound
  have hinterned := State.interned_after document steps
  generalize (State.start document).after steps = start at *
  obtain ⟨hhastypes, hhasothers⟩ := List.forall_mem_append.1 hhas
  have hfirst : Joins types start u s :=
    (joins_unify hsound hinterned hhastypes htypes hint loc).ok hu
  have hgrows := hfirst.advances.extends_.grows
  have hinside : ∀ h ∈ u :: others, s.graph.Has h :=
    List.forall_mem_cons.2 ⟨hfirst.has, fun h hmem => hgrows.has h (hhasothers h hmem)⟩
  have hsecond : Joins (u :: others) s r t :=
    (joins_unify hfirst.sound hfirst.advances.interned hinside (List.cons_ne_nil _ _) hint' loc').ok
      hr
  -- The joint type of some of the types stays one, and the types may be put in its place.
  have hgroup : t.graph.Joint {h | h ∈ types} u :=
    (hfirst.joint hmerges).extend hsecond.advances.extends_ hfirst.sound
      (fun h hmem => hgrows.has h (hhastypes h hmem)) hfirst.has
  have hjoint : t.graph.Joint {h | h ∈ types ++ others} r := by
    have hwhole := hsecond.joint hmerges'
    rw [show {h | h ∈ u :: others} = {u} ∪ {h | h ∈ others} by ext h; simp] at hwhole
    rw [show {h | h ∈ types ++ others} = {h | h ∈ types} ∪ {h | h ∈ others} by ext h; simp]
    exact hgroup.union hsecond.sound hwhole
  have hthere : ∀ h ∈ types ++ others, t.graph.Has h :=
    fun h hmem => hsecond.advances.extends_.grows.has h (hgrows.has h (hhas h hmem))
  obtain ⟨heq, hlike⟩ := (settles_unify hsecond.sound hsecond.advances.interned hthere hsecond.has
    hjoint hint'' loc'' t (.refl _)).ok hb
  exact ⟨heq, hlike.shapes.size_eq.symm, hlike.shapes⟩

def tariffDocument : Json :=
  .object [
    ("type", .string "object"),
    ("additionalProperties", .object [("type", .string "integer")])]

def tariffSession : List SessionStep :=
  [.convert tariffDocument .root (.inferred "Prices"),
    .convert (.object [
      ("type", .string "object"),
      ("additionalProperties", .object [
        ("type", .string "array"),
        ("items", .object [("type", .string "string")])])])
      (Location.root.child (.oneOf 1)) (.inferred "Labels"),
    .convert (.object [
      ("type", .string "object"),
      ("additionalProperties", .object [
        ("type", .string "array"),
        ("items", .object [("type", .string "integer")])])])
      (Location.root.child (.oneOf 2)) (.inferred "Codes")]

theorem unify_grouped_tariff :
    let s := (State.start tariffDocument).after tariffSession
    let t := ((unify [⟨0⟩, ⟨2⟩] (.inferred "Tariff") .root).run s).2
    let u := ((unify [⟨8⟩, ⟨5⟩, ⟨0⟩] (.inferred "Tariff") .root).run t).2
    let v := ((unify [⟨0⟩, ⟨2⟩, ⟨5⟩, ⟨0⟩] (.inferred "Tariff") .root).run u).2
    (unify [⟨0⟩, ⟨2⟩, ⟨5⟩, ⟨0⟩] (.inferred "Tariff") .root).run u = (.ok ⟨12⟩, v) ∧
      v.graph.size = u.graph.size ∧ u.graph.SameShapes v.graph := by
  intro s t u v
  have hfirst : (unify [⟨0⟩, ⟨2⟩] (.inferred "Tariff") .root).run s = (.ok ⟨8⟩, t) :=
    Effect.run_eq_of_ok (by decide +kernel)
  have hsecond : (unify [⟨8⟩, ⟨5⟩, ⟨0⟩] (.inferred "Tariff") .root).run t = (.ok ⟨12⟩, u) :=
    Effect.run_eq_of_ok (by decide +kernel)
  have hwhole : (unify [⟨0⟩, ⟨2⟩, ⟨5⟩, ⟨0⟩] (.inferred "Tariff") .root).run u = (.ok ⟨12⟩, v) :=
    Effect.run_eq_of_ok (by decide +kernel)
  exact ⟨hwhole, (unify_grouped (by decide) (by decide +kernel) (List.cons_ne_nil _ _)
    (by decide +kernel) hfirst hsecond hwhole (by decide +kernel)
    (by decide +kernel)).2⟩

end Conversion

end SchemaGraph
