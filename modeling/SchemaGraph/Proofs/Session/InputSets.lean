import SchemaGraph.Proofs.Session.Interning
import SchemaGraph.Proofs.Session.Alternatives
import SchemaGraph.Proofs.Unification.Lockstep

/-!
This module contains the proof that a unification depends on nothing but the set of types that it is
given. Their order and number make no difference, as long as no records are merged, except for the
order of the cases in new enums. A type that is given alone, however often, is the result itself.
-/

namespace SchemaGraph

namespace Unification

open Effect

variable {s : State} {types types' : List Handle} {h : Handle}

theorem lockstep_unify (hs : s.graph.Sound) (hinterned : s.graph.Interned)
    (hhas : ∀ h ∈ types, s.graph.Has h) (hset : ∀ h, h ∈ types ↔ h ∈ types') (htypes : types ≠ [])
    (hint : NameHint) (loc : Location) :
    InLockstepIfQuiet (unify types hint loc) (unify types' hint loc) (fun r t => t.graph.Has r)
      s s := by
  unfold unify
  apply lockstep_state_bind
  exact lockstep_unifyWithin _ hint loc (.refl hs hinterned) hhas hset htypes

theorem unify_same (hs : s.graph.Sound) (hinterned : s.graph.Interned) (hhas : s.graph.Has h)
    (htypes : types ≠ []) (hsame : ∀ k ∈ types, k = h) (hint : NameHint) (loc : Location) :
    ((unify types hint loc).run s).1 = .ok h ∧
      s.graph.Like False ((unify types hint loc).run s).2.graph := by
  have hdeep : h.index < s.graph.unificationBound :=
    Nat.lt_trans hhas s.graph.size_lt_unificationBound
  have hsettles :
      Settles (unifyWithin s.graph.unificationBound) (fun _ _ => False) s.graph types h :=
    settles_same hs hinterned hhas htypes hsame fun hle => absurd hdeep (Nat.not_lt_of_le hle)
  have hends : Ends (unify types hint loc) (fun r t => r = h ∧ s.graph.Like False t.graph)
      (fun _ _ => False) s := by
    unfold unify
    apply alike_state_bind
    exact hsettles hint loc s (.refl _)
  rcases hrun : (unify types hint loc).run s with ⟨fault | r, t⟩
  . cases hends.error hrun
  . obtain ⟨rfl, hlike⟩ := hends.ok hrun
    exact ⟨rfl, hlike⟩

end Unification

namespace Conversion

open Unification

theorem unify_by_elements {document : Json} (hkeys : document.hasUniqueKeys = true)
    {steps : List SessionStep} (hsteps : (State.start document).Takes steps) (hint : NameHint)
    (loc : Location) :
    let s := (State.start document).after steps
    (∀ types types', types ≠ [] → (∀ h ∈ types, s.graph.Has h) → (∀ h, h ∈ types ↔ h ∈ types') →
      let (result, t) := (unify types hint loc).run s
      let (result', t') := (unify types' hint loc).run s
      t.merges = s.merges → t'.merges = s.merges →
      (∀ loc', result ≠ .error (.endlessUnification loc')) →
      (∀ loc', result' ≠ .error (.endlessUnification loc')) →
        result = result' ∧
        (∀ h, Option.Rel Shape.SameButCases (t.graph.shape? h) (t'.graph.shape? h)) ∧
        ∀ h, s.graph.Has h →
          t.graph.shape? h = s.graph.shape? h ∧ t'.graph.shape? h = s.graph.shape? h) ∧
    ∀ h, s.graph.Has h → ∀ n,
      let (result, t) := (unify (List.replicate (n + 1) h) hint loc).run s
      result = .ok h ∧ t.graph.size = s.graph.size ∧ s.graph.SameShapes t.graph := by
  intro s
  have hsound : s.graph.Sound := ((State.valid_start document).after hkeys hsteps).sound
  have hinterned : s.graph.Interned := State.interned_after document steps
  constructor
  . intro types types' htypes hhas hset
    have hhas' : ∀ h ∈ types', s.graph.Has h := fun h hmem => hhas h ((hset h).2 hmem)
    have hgrows : s.graph.Grows ((unify types hint loc).run s).2.graph :=
      (builds_unify hint loc hsound hhas).final (fun _ _ h => h.1.graph.grows)
        fun _ _ h => h.1.graph.grows
    have hgrows' : s.graph.Grows ((unify types' hint loc).run s).2.graph :=
      (builds_unify hint loc hsound hhas').final (fun _ _ h => h.1.graph.grows)
        fun _ _ h => h.1.graph.grows
    have hlockstep := lockstep_unify hsound hinterned hhas hset htypes hint loc
    intro hmerges hmerges' hends hends'
    have hend := hlockstep ⟨Nat.le_of_eq hmerges, hends⟩ ⟨Nat.le_of_eq hmerges', hends'⟩
    refine ⟨hend.eq, ?_, fun h hhas => ⟨hgrows.shape?_eq hhas, hgrows'.shape?_eq hhas⟩⟩
    have htwins := hend.final (fun _ _ _ h => h.2.twins) fun _ _ _ => id
    exact htwins.shapes
  . intro h hhas n
    have hsame : ∀ k ∈ List.replicate (n + 1) h, k = h := fun k => List.eq_of_mem_replicate
    obtain ⟨hresult, hlike⟩ :=
      unify_same hsound hinterned hhas (List.cons_ne_nil _ _) hsame hint loc
    exact ⟨hresult, hlike.shapes.size_eq.symm, hlike.shapes⟩

theorem unify_by_elements_extents :
    let s := (State.start extentDocument).after extentSession
    let t := ((unify [⟨0⟩, ⟨4⟩, ⟨1⟩] (.inferred "Any") .root).run s).2
    let t' := ((unify [⟨1⟩, ⟨4⟩, ⟨0⟩, ⟨1⟩] (.inferred "Any") .root).run s).2
    (unify [⟨0⟩, ⟨4⟩, ⟨1⟩] (.inferred "Any") .root).run s = (.ok ⟨7⟩, t) ∧
      (unify [⟨1⟩, ⟨4⟩, ⟨0⟩, ⟨1⟩] (.inferred "Any") .root).run s = (.ok ⟨7⟩, t') ∧
      t.graph.shape? ⟨5⟩ = some (.enum ["small", "large", "vast"]) ∧
      t'.graph.shape? ⟨5⟩ = some (.enum ["large", "vast", "small"]) ∧
      (∀ h, Option.Rel Shape.SameButCases (t.graph.shape? h) (t'.graph.shape? h)) ∧
      ∀ h, s.graph.Has h →
        t.graph.shape? h = s.graph.shape? h ∧ t'.graph.shape? h = s.graph.shape? h := by
  intro s t t'
  have hrun : (unify [⟨0⟩, ⟨4⟩, ⟨1⟩] (.inferred "Any") .root).run s = (.ok ⟨7⟩, t) :=
    Effect.run_eq_of_ok (by decide +kernel)
  have hrun' : (unify [⟨1⟩, ⟨4⟩, ⟨0⟩, ⟨1⟩] (.inferred "Any") .root).run s = (.ok ⟨7⟩, t') :=
    Effect.run_eq_of_ok (by decide +kernel)
  have hset : ∀ h : Handle, h ∈ [⟨0⟩, ⟨4⟩, ⟨1⟩] ↔ h ∈ [⟨1⟩, ⟨4⟩, ⟨0⟩, ⟨1⟩] := by
    intro h
    simp only [List.mem_cons, List.not_mem_nil, or_false]
    grind
  have hkeys : extentDocument.hasUniqueKeys = true := by decide
  have hsteps : (State.start extentDocument).Takes extentSession := by decide +kernel
  have hhas : ∀ h ∈ [⟨0⟩, ⟨4⟩, ⟨1⟩], s.graph.Has h := by decide +kernel
  have hsame := (unify_by_elements hkeys hsteps (.inferred "Any") .root).1 _ _
    (List.cons_ne_nil _ _) hhas hset
  rw [hrun, hrun'] at hsame
  exact ⟨hrun, hrun', by decide +kernel, by decide +kernel,
    (hsame (by decide +kernel) (by decide +kernel) nofun nofun).2⟩

end Conversion

end SchemaGraph
