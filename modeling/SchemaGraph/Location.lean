/-!
This module contains locations in a schema document. A location is a list of steps, each of which
goes from one schema to a schema inside it, with the exception of the step to the root, which goes
back to the whole document from anywhere. Locations have a written form and a total order.
-/

namespace SchemaGraph

inductive Step where
  | root
  | definition (name : String)
  | oneOf (index : Nat)
  | anyOf (index : Nat)
  | property (name : String)
  | additionalProperties
  | items
  deriving DecidableEq, Inhabited

namespace Step

def text : Step → String
  | .root => "#"
  | .definition name => "definitions/" ++ name
  | .oneOf index => "oneOf/" ++ toString index
  | .anyOf index => "anyOf/" ++ toString index
  | .property name => "properties/" ++ name
  | .additionalProperties => "additionalProperties"
  | .items => "items"

def rank : Step → Nat
  | .root => 0
  | .definition _ => 1
  | .oneOf _ => 2
  | .anyOf _ => 3
  | .property _ => 4
  | .additionalProperties => 5
  | .items => 6

def compare : Step → Step → Ordering
  | .definition a, .definition b => Ord.compare a b
  | .property a, .property b => Ord.compare a b
  | .oneOf i, .oneOf j => Ord.compare i j
  | .anyOf i, .anyOf j => Ord.compare i j
  | s, t => Ord.compare s.rank t.rank

end Step

structure Location where
  steps : List Step
  deriving DecidableEq, Inhabited

namespace Location

def root : Location :=
  ⟨[.root]⟩

def child (loc : Location) (step : Step) : Location :=
  ⟨loc.steps ++ [step]⟩

def tailText : List Step → String
  | [] => ""
  | step :: rest => "/" ++ step.text ++ tailText rest

/--
The written form of a location: its steps with slashes between them. The empty location is written
as the root is.
-/
def text (loc : Location) : String :=
  match loc.steps with
  | [] => "#"
  | step :: rest => step.text ++ tailText rest

def compareSteps : List Step → List Step → Ordering
  | [], [] => .eq
  | [], _ :: _ => .lt
  | _ :: _, [] => .gt
  | s :: ss, t :: ts => (s.compare t).then (compareSteps ss ts)

def compare (a b : Location) : Ordering :=
  compareSteps a.steps b.steps

example : (root.child (.definition "A") |>.child (.oneOf 0)).text = "#/definitions/A/oneOf/0" := by
  decide

@[simp]
theorem child_steps (loc : Location) (step : Step) :
    (loc.child step).steps = loc.steps ++ [step] := rfl

end Location

end SchemaGraph
