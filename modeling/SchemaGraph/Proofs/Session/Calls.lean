import Mathlib.Logic.Relation
import SchemaGraph.Proofs.Session.Upheld

/-!
This module contains the calls that a session consists of, the ones that it makes itself and the
ones that are nested in these, and the proof that each of them has a frame: it leaves the types of
all nodes, all recorded types and all marks as they were, whatever has happened before and however
it ends.
-/

namespace SchemaGraph

inductive Call where
  | convert (depth : Nat) (place : Place) (hint : NameHint)
  | unify (depth : Nat) (types : List Handle) (hint : NameHint) (loc : Location)

namespace Call

open Effect

def effect : Call → Effect Handle
  | .convert depth place hint => Descent.convertWithin depth place.node place.loc hint
  | .unify depth types hint loc => Unification.unifyWithin depth types hint loc

section

variable (ask : Call → Effect Handle)

def converting (depth : Nat) : Descent.Convert := fun node loc hint =>
  ask (.convert depth ⟨node, loc⟩ hint)

def unifying : Unification.Unify := fun types hint loc => do
  ask (.unify (← state).graph.unificationBound types hint loc)

def unifyingWithin (depth : Nat) : Unification.Unify := fun types hint loc =>
  ask (.unify depth types hint loc)

def body : Call → Effect Handle
  | .convert 0 place _ => fail (.endlessDescent place.loc)
  | .convert (depth + 1) place hint =>
    Descent.visit place (Descent.schemaWith (converting ask depth) (unifying ask) place hint)
  | .unify _ [] _ _ => fail .nothingToUnify
  | .unify _ [h] _ _ => pure h
  | .unify 0 (_ :: _ :: _) _ loc => fail (.endlessUnification loc)
  | .unify (depth + 1) (h :: k :: hs) hint loc => do
    Unification.combine (unifyingWithin ask depth) ((← state).graph.leaves (h :: k :: hs)) hint loc

end

theorem run_convert (node : Json) (loc : Location) (hint : NameHint) (s : State) :
    (Descent.convert node loc hint).run s =
      (convert (Descent.depthBound s.document node) ⟨node, loc⟩ hint).effect.run s := by
  unfold Descent.convert
  rw [run_bind, run_state]
  rfl

theorem run_unify (types : List Handle) (hint : NameHint) (loc : Location) (s : State) :
    (Unification.unify types hint loc).run s =
      (unify s.graph.unificationBound types hint loc).effect.run s := by
  unfold Unification.unify
  rw [run_bind, run_state]
  rfl

theorem body_effect (c : Call) : c.body effect = c.effect := by
  match c with
  | .convert 0 _ _ => rfl
  | .convert (depth + 1) place hint =>
    change _ = Descent.convertWithin (depth + 1) place.node place.loc hint
    rw [Descent.convertWithin_succ, Descent.intoSchema_eq_schemaWith]
    rfl
  | .unify 0 [] _ _ => rfl
  | .unify (depth + 1) [] _ _ => rfl
  | .unify 0 [h] _ _ => rfl
  | .unify (depth + 1) [h] _ _ => rfl
  | .unify 0 (_ :: _ :: _) _ _ => rfl
  | .unify (depth + 1) (h :: k :: hs) hint loc => rfl

/--
A call in a state makes another call in another state: what it does depends on how that one alone is
answered.
-/
def Makes (a b : State × Call) : Prop :=
  ∃ ask : Call → Effect Handle,
    (∀ s c, (s, c) ≠ b → (ask c).run s = c.effect.run s) ∧
      (a.2.body ask).run a.1 ≠ a.2.effect.run a.1

/--
What a call leaves as it was: the nodes with their types, their names up to stronger ones, the
recorded types and the marks.
-/
structure Framed (s t : State) : Prop where
  nodes : s.graph.Keeps t.graph
  memo {loc h} : s.memo.get? loc = some h → t.memo.get? loc = some h
  active : t.active = s.active
  reentered : t.reentered = s.reentered

/--
What holds of a call besides, from `s` with the given outcome. A unification does not touch the
recorded types. A conversion with a result records it and leaves no new node open.
-/
def Settles (s : State) : Call → Except Fault Handle × State → Prop
  | .unify .., (_, t) => t.memo = s.memo
  | .convert _ place _, (result, t) => ∀ h, result = .ok h →
    t.memo.get? place.loc = some h ∧ ∀ k, t.graph.Has k → ¬s.graph.Has k → ¬t.graph.Pending k

end Call

variable {s t : State}

theorem State.Upheld.framed {opened : List Handle} (h : s.Upheld opened t) : Call.Framed s t :=
  ⟨h.keeps, h.memo, h.active, h.reentered⟩

theorem State.Upheld.closed (h : s.Upheld [] t) (k : Handle) (hnew : ¬s.graph.Has k) :
    ¬t.graph.Pending k := by
  intro hpending
  rcases h.pending k hpending with hhas | hmem
  . exact hnew hhas
  . cases hmem

namespace Call

open Effect

def Done (s : State) : Call → Handle → State → Prop
  | .convert _ place _, h, t => s.Upheld [] t ∧ t.memo.get? place.loc = some h
  | .unify .., _, t => s.Upheld [] t ∧ t.memo = s.memo

def Failed (s : State) : Call → State → Prop
  | .convert .., t => ∃ opened, s.Upheld opened t
  | .unify .., t => s.Upheld [] t ∧ t.memo = s.memo

theorem ends_effect (c : Call) (hs : s.graph.Tabled) :
    Ends c.effect (c.Done s) (fun _ t => c.Failed s t) s := by
  cases c with
  | convert depth place hint => exact Descent.spares_convertWithin depth place hint s hs
  | unify depth types hint loc => exact Unification.spares_unifyWithin depth types hint loc s hs

theorem alike_body {ask ask' : Call → Effect Handle}
    (hask : ∀ c s, s.graph.Tabled → Alike (ask c) (ask' c) (c.Done s) (fun _ t => c.Failed s t) s)
    (c : Call) (hs : s.graph.Tabled) :
    Alike (c.body ask) (c.body ask') (c.Done s) (fun _ t => c.Failed s t) s := by
  have hconvert (depth : Nat) : Descent.Spares (converting ask depth) (converting ask' depth) :=
    fun place hint s hs => hask (.convert depth place hint) s hs
  have hunify (depth : Nat) :
      Unification.Spares (unifyingWithin ask depth) (unifyingWithin ask' depth) :=
    fun types hint loc s hs => hask (.unify depth types hint loc) s hs
  match c with
  | .convert 0 _ _ => exact ⟨rfl, [], .refl hs⟩
  | .convert (depth + 1) place hint =>
    have hunifying : Unification.Spares (unifying ask) (unifying ask') := by
      intro types hint loc s hs
      apply alike_state_bind
      exact hunify _ types hint loc s hs
    exact (hconvert depth).visit hunifying place hint hs
  | .unify 0 [] _ _ => exact ⟨rfl, .refl hs, rfl⟩
  | .unify (_ + 1) [] _ _ => exact ⟨rfl, .refl hs, rfl⟩
  | .unify 0 [_] _ _ => exact ⟨rfl, .refl hs, rfl⟩
  | .unify (_ + 1) [_] _ _ => exact ⟨rfl, .refl hs, rfl⟩
  | .unify 0 (_ :: _ :: _) _ _ => exact ⟨rfl, .refl hs, rfl⟩
  | .unify (depth + 1) (h :: k :: hs') hint loc =>
    apply alike_state_bind
    exact (hunify depth).combine (h :: k :: hs') hint loc hs

theorem Makes.tabled {a b : State × Call} (h : Makes a b) (ha : a.1.graph.Tabled) :
    b.1.graph.Tabled := by
  obtain ⟨ask, hask, hdiffers⟩ := h
  apply Classical.byContradiction
  intro hb
  apply hdiffers
  have halike : ∀ c s, s.graph.Tabled →
      Alike (ask c) c.effect (c.Done s) (fun _ t => c.Failed s t) s := by
    intro c s hs
    have hne : (s, c) ≠ b := by
      rintro rfl
      exact hb hs
    refine ⟨hask s c hne, ?_⟩
    rw [hask s c hne]
    exact (c.ends_effect hs).2
  rw [← a.2.body_effect]
  exact (alike_body halike a.2 ha).1

theorem tabled_of_nested {a b : State × Call} (h : Relation.ReflTransGen Makes a b)
    (ha : a.1.graph.Tabled) : b.1.graph.Tabled := by
  induction h with
  | refl => exact ha
  | tail _ hmakes ih => exact hmakes.tabled ih

end Call

namespace Conversion

open Descent

theorem frame_of_calls (document : Json) (steps : List SessionStep) :
    let s := (State.start document).after steps
    (∀ c t c', Relation.ReflTransGen Call.Makes (s, c) (t, c') →
      Call.Framed t (c'.effect.run t).2 ∧ c'.Settles t (c'.effect.run t)) ∧
    ∀ node loc hint h t, (convert node loc hint).run s = (.ok h, t) → ∀ later,
      (t.after later).memo.get? loc = some h ∧
        ∀ node' hint', ((convert node' loc hint').run (t.after later)).1 = .ok h := by
  intro s
  have hs : s.graph.Tabled := State.tabled_after document steps
  constructor
  . intro c t c' hnested
    have ht : t.graph.Tabled := Call.tabled_of_nested hnested hs
    have hends := c'.ends_effect ht
    rcases hrun : c'.effect.run t with ⟨fault | h, u⟩
    . have hfailed := hends.error hrun
      cases c' with
      | convert depth place hint =>
        obtain ⟨opened, hupheld⟩ := hfailed
        exact ⟨hupheld.framed, fun h hok => nomatch hok⟩
      | unify depth types hint loc => exact ⟨hfailed.1.framed, hfailed.2⟩
    . have hdone := hends.ok hrun
      cases c' with
      | convert depth place hint =>
        refine ⟨hdone.1.framed, ?_⟩
        rintro _ ⟨⟩
        exact ⟨hdone.2, fun k _ hnew => hdone.1.closed k hnew⟩
      | unify depth types hint loc => exact ⟨hdone.1.framed, hdone.2⟩
  . intro node loc hint h t hrun later
    obtain ⟨hupheld, hmemo⟩ := (spares_convert ⟨node, loc⟩ hint s hs).ok hrun
    obtain ⟨opened, hlater⟩ := State.upheld_after later hupheld.tabled
    have hget := hlater.memo hmemo
    refine ⟨hget, ?_⟩
    intro node' hint'
    rw [run_convert_known hint' hget]

end Conversion

end SchemaGraph
