import SchemaGraph.Proofs.Session.Blame
import SchemaGraph.Proofs.Session.Calls

/-!
This module contains the proof that some faults do not arise in any session. Each open node is
filled in once, by the conversion that has opened it, references lead only to definitions, and a
unification that is given types gives types to all unifications nested in it.
-/

namespace SchemaGraph

def Fault.isUnreachable : Fault → Bool
  | .noOpenSlot _ => true
  | .noProperty _ _ => true
  | .noAlternative _ _ _ => true
  | _ => false

variable {base s t : State} {fault : Fault}

theorem Fault.isUnreachable_of_isOfTypes (h : fault.isOfTypes = true) :
    fault.isUnreachable = false := by
  cases fault with
  | noOpenSlot _ => cases h
  | noProperty _ _ => cases h
  | noAlternative _ _ _ => cases h
  | _ => rfl

theorem Fault.Blames.isOfSchema {node : Json} {loc : Location} (h : fault.Blames node loc) :
    fault.isOfSchema = true := by
  cases h with
  | _ => rfl

theorem Fault.isUnreachable_of_isOfSchema (h : fault.isOfSchema = true) :
    fault.isUnreachable = false := by
  cases fault with
  | noOpenSlot _ => cases h
  | noProperty _ _ => cases h
  | noAlternative _ _ _ => cases h
  | _ => rfl

namespace State.Explains

theorem isUnreachable (h : base.Explains s fault) : fault.isUnreachable = false := by
  cases h with
  | types h => exact Fault.isUnreachable_of_isOfTypes h
  | endlessReference _ => rfl
  | endlessDescent _ => rfl
  | raised _ h =>
    rcases h.cases with ⟨text, rfl⟩ | ⟨rfl, -⟩ | ⟨taken, middle, -, hblames⟩
    . rfl
    . rfl
    . exact Fault.isUnreachable_of_isOfSchema hblames.isOfSchema

theorem offersNothing (h : base.Explains s .nothingToUnify) :
    ∃ place, base.Dispatched s place ∧ place.OffersNothing := by
  cases h with
  | types h => cases h
  | raised hplace h =>
    rcases h.cases with ⟨text, heq⟩ | ⟨-, hoffers⟩ | ⟨taken, middle, -, hblames⟩
    . cases heq
    . exact ⟨_, hplace, hoffers⟩
    . cases hblames

end State.Explains

namespace Unification

open Effect

def Concurs (unify unify' : Unify) : Prop :=
  ∀ types hint loc s, types ≠ [] →
    Alike (unify types hint loc) (unify' types hint loc) (fun _ _ => True)
      (fun fault _ => fault.isOfTypes = true) s

variable {unify unify' : Unify}

theorem Concurs.inPace (h : Concurs unify unify') :
    InPace True Eq (fun fault t t' => t = t' ∧ fault.isOfTypes = true) unify unify' := by
  rintro types hint hint' loc s _ htypes hhint rfl
  rw [← hhint trivial]
  exact (h types hint loc s htypes).abreast.mono (fun _ _ _ h => h.1) fun _ _ _ => id

theorem concurs_unifyWithin (depth : Nat) : Concurs (unifyWithin depth) (unifyWithin depth) := by
  intro types hint loc s htypes
  have hunify := pace_single.inPace_unifyWithin depth types hint hint loc s s htypes
    (fun _ => rfl) rfl
  exact (hunify.mono (fun _ _ _ h => ⟨h, trivial⟩) fun _ _ _ => id).alike

theorem Concurs.combine (h : Concurs unify unify') (types : List Handle) (hint : NameHint)
    (loc : Location) (s : State) :
    Alike (combine unify (s.graph.leaves types) hint loc)
      (combine unify' (s.graph.leaves types) hint loc) (fun _ _ => True)
      (fun fault _ => fault.isOfTypes = true) s := by
  have hhint : True → hint = hint := fun _ => rfl
  have hcombine := pace_single.abreast_combine h.inPace types hhint loc (Eq.refl s)
  exact (hcombine.mono (fun _ _ _ h => ⟨h, trivial⟩) fun _ _ _ => id).alike

end Unification

namespace Call

open Effect

def Unifies : Call → Prop
  | .convert .. => False
  | .unify _ types _ _ => types ≠ []

theorem Unifies.ends {c : Call} (hc : c.Unifies) (s : State) :
    Ends c.effect (fun _ _ => True) (fun fault _ => fault.isOfTypes = true) s := by
  cases c with
  | convert depth place hint => exact hc.elim
  | unify depth types hint loc => exact Unification.concurs_unifyWithin depth types hint loc s hc

theorem Unifies.ne_nothingToUnify {c : Call} (hc : c.Unifies) (s : State) :
    (c.effect.run s).1 ≠ .error .nothingToUnify := by
  intro h
  cases (hc.ends s).error (Prod.ext h rfl)

theorem Makes.unifies {a b : State × Call} (h : Makes a b) (ha : a.2.Unifies) : b.2.Unifies := by
  obtain ⟨ask, hask, hdiffers⟩ := h
  apply Classical.byContradiction
  intro hb
  apply hdiffers
  have hconcurs (depth : Nat) :
      Unification.Concurs (unifyingWithin ask depth) (Unification.unifyWithin depth) := by
    intro types hint loc s htypes
    have hne : (s, unify depth types hint loc) ≠ b := by
      rintro rfl
      exact hb htypes
    have hanswer : (unifyingWithin ask depth types hint loc).run s = _ := hask s _ hne
    refine ⟨hanswer, ?_⟩
    rw [hanswer]
    exact (Unification.concurs_unifyWithin depth types hint loc s htypes).2
  obtain ⟨s, c⟩ := a
  match c with
  | .convert .. => exact ha.elim
  | .unify _ [] _ _ => exact absurd rfl ha
  | .unify 0 [_] _ _ => rfl
  | .unify (_ + 1) [_] _ _ => rfl
  | .unify 0 (_ :: _ :: _) _ _ => rfl
  | .unify (depth + 1) (h :: k :: hs) hint loc =>
    exact (alike_state_bind ((hconcurs depth).combine (h :: k :: hs) hint loc s)).1

theorem Unifies.nested {a b : State × Call} (ha : a.2.Unifies)
    (h : Relation.ReflTransGen Makes a b) : b.2.Unifies := by
  induction h with
  | refl => exact ha
  | tail _ hmakes ih => exact hmakes.unifies ih

theorem isUnreachable_of_error (c : Call) (hs : s.graph.Tabled)
    (h : (c.effect.run s).1 = .error fault) : fault.isUnreachable = false := by
  cases c with
  | convert depth place hint =>
    have hends := Descent.explains_convertWithin depth place hint hs
    exact (hends.error (Prod.ext h rfl)).isUnreachable
  | unify depth types hint loc =>
    by_cases htypes : types = []
    . subst htypes
      rw [effect, Unification.run_unifyWithin_nil] at h
      cases h
      rfl
    . have hends := Unification.concurs_unifyWithin depth types hint loc s htypes
      exact Fault.isUnreachable_of_isOfTypes (hends.error (Prod.ext h rfl))

end Call

namespace Conversion

open Effect

/--
Whatever a session has come to, no step of it and no call nested in one has an unreachable fault. A
unification of some types never has nothing to unify, at whatever depth. A conversion ends with this
fault only if it has read a schema that offers a choice between no alternatives.
-/
theorem unreachable_faults (document : Json) (steps : List SessionStep) :
    let s := (State.start document).after steps
    (∀ (step : SessionStep) fault, (step.effect.run s).1 = .error fault →
      fault.isUnreachable = false) ∧
    (∀ c t c' fault, Relation.ReflTransGen Call.Makes (s, c) (t, c') →
      (c'.effect.run t).1 = .error fault → fault.isUnreachable = false) ∧
    (∀ types hint loc, types ≠ [] →
      ((Unification.unify types hint loc).run s).1 ≠ .error .nothingToUnify) ∧
    (∀ c t c', c.Unifies → Relation.ReflTransGen Call.Makes (s, c) (t, c') →
      c'.Unifies ∧ (c'.effect.run t).1 ≠ .error .nothingToUnify) ∧
    ∀ node loc hint, ((Descent.convert node loc hint).run s).1 = .error .nothingToUnify →
      ∃ place, s.Dispatched ((Descent.convert node loc hint).run s).2 place ∧
        place.OffersNothing := by
  intro s
  have hs : s.graph.Tabled := State.tabled_after document steps
  refine ⟨?_, ?_, ?_, ?_, ?_⟩
  . intro step fault h
    cases step with
    | convert node loc hint =>
      rw [SessionStep.effect, Call.run_convert] at h
      exact Call.isUnreachable_of_error _ hs h
    | unify types hint loc =>
      rw [SessionStep.effect, Call.run_unify] at h
      exact Call.isUnreachable_of_error _ hs h
    | nullable type hint => cases h
  . intro c t c' fault hnested h
    exact c'.isUnreachable_of_error (Call.tabled_of_nested hnested hs) h
  . intro types hint loc hne h
    rw [Call.run_unify] at h
    exact Call.Unifies.ne_nothingToUnify (c := .unify _ types hint loc) hne s h
  . intro c t c' hc hnested
    have hc' := hc.nested hnested
    exact ⟨hc', hc'.ne_nothingToUnify t⟩
  . intro node loc hint h
    have hends := Descent.explains_convert ⟨node, loc⟩ hint hs
    exact (hends.error (Prod.ext h rfl)).offersNothing

def choicelessDocument : Json :=
  .object [
    ("type", .string "object"),
    ("properties", .object [
      ("a", .object [("type", .string "string")]),
      ("b", .object [("anyOf", .array [])])])]

def choicelessSession : List SessionStep :=
  [.convert (.object [("type", .string "string")]) ⟨[.root, .property "a"]⟩ (.inferred "a"),
    .nullable ⟨0⟩ (.inferred "a")]

theorem run_choiceless :
    let s := (State.start choicelessDocument).after choicelessSession
    ((Descent.convert choicelessDocument .root (.inferred "Root")).run s).1 =
      .error .nothingToUnify := by
  decide +kernel

theorem unreachable_faults_choiceless :
    let s := (State.start choicelessDocument).after choicelessSession
    let root := SessionStep.convert choicelessDocument .root (.inferred "Root")
    let both := Call.unify 2 [⟨0⟩, ⟨1⟩] (.inferred "Root") .root
    Fault.nothingToUnify.isUnreachable = false ∧
      (both.Unifies ∧ (both.effect.run s).1 ≠ .error .nothingToUnify) ∧
      ((Unification.unify [⟨0⟩, ⟨1⟩] (.inferred "Root") .root).run s).1 ≠ .error .nothingToUnify ∧
      ∃ place, s.Dispatched (root.effect.run s).2 place ∧ place.OffersNothing := by
  intro s root both
  have hrun : (root.effect.run s).1 = .error .nothingToUnify := run_choiceless
  obtain ⟨hsteps, -, htypes, hcalls, hchoice⟩ :=
    unreachable_faults choicelessDocument choicelessSession
  exact ⟨hsteps root _ hrun, hcalls both s both (List.cons_ne_nil _ _) .refl,
    htypes _ _ _ (List.cons_ne_nil _ _), hchoice _ _ _ hrun⟩

end Conversion

end SchemaGraph
