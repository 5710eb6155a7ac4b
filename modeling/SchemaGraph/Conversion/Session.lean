import SchemaGraph.Conversion.Descent

/-!
This module contains sessions: sequences of steps on one state. A step that fails does not end the
session, and the state that it has reached stays.
-/

namespace SchemaGraph

inductive SessionStep where
  | convert (node : Json) (loc : Location) (hint : NameHint)
  | unify (types : List Handle) (hint : NameHint) (loc : Location)
  | nullable (type : Handle) (hint : NameHint)

def SessionStep.effect : SessionStep → Effect Handle
  | .convert node loc hint => Descent.convert node loc hint
  | .unify types hint loc => Unification.unify types hint loc
  | .nullable type hint => Effect.build fun g => g.addNullable type hint

namespace State

def after (s : State) (steps : List SessionStep) : State :=
  steps.foldl (fun s step => (step.effect.run s).2) s

@[simp]
theorem after_nil (s : State) : s.after [] = s := rfl

@[simp]
theorem after_cons (s : State) (step : SessionStep) (steps : List SessionStep) :
    s.after (step :: steps) = (step.effect.run s).2.after steps := rfl

end State

end SchemaGraph
