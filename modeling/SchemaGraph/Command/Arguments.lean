/-!
This module contains the commands and the reader of the arguments that give them. `graph` writes the
type graphs of some documents and `check` tells which documents can be converted. Arguments are read
from left to right, and an option is taken in when the next one begins or the arguments end.
-/

namespace SchemaGraph

structure Inputs where
  patterns : List String
  config : Option String
  deriving DecidableEq

inductive Command where
  | graph (inputs : Inputs) (rootName : Option String) (out : Option String) (noOp : Bool)
  | check (inputs : Inputs)
  deriving DecidableEq

inductive UsageFault where
  | missingInput
  | missingValue
  | unknownArgument
  | unknownCommand
  | repeatedOption
  | unwantedValue
  | help
  | nothingGiven
  deriving DecidableEq

def UsageFault.text : UsageFault → String
  | .missingInput => "MissingRequiredArgument"
  | .missingValue => "InvalidValue"
  | .unknownArgument => "UnknownArgument"
  | .unknownCommand => "InvalidSubcommand"
  | .repeatedOption => "ArgumentConflict"
  | .unwantedValue => "TooManyValues"
  | .help => "DisplayHelp"
  | .nothingGiven => "DisplayHelpOnMissingArgumentOrSubcommand"

namespace Command

inductive Verb where
  | graph
  | check
  deriving DecidableEq

inductive Flag where
  | input
  | config
  | rootType
  | out
  | noOp
  | help
  deriving DecidableEq

def Flag.takesValue : Flag → Bool
  | .noOp => false
  | .help => false
  | _ => true

def Verb.long? (verb : Verb) (name : String) : Option Flag :=
  if name = "input" then some .input
  else if name = "config" then some .config
  else if name = "help" then some .help
  else if verb = .graph then
    if name = "root-type" then some .rootType
    else if name = "out" then some .out
    else if name = "no-op" then some .noOp
    else none
  else none

def Verb.short? (verb : Verb) (name : Char) : Option Flag :=
  if name = 'i' then some .input
  else if name = 'h' then some .help
  else if verb = .graph ∧ name = 'o' then some .out
  else none

/--
What has been read so far. `waiting` is the option that has been read last, with its values.
-/
structure Draft where
  patterns : Option (List String) := none
  config : Option String := none
  rootName : Option String := none
  out : Option String := none
  noOp : Bool := false
  waiting : Option (Flag × List String) := none

def single (old : Option String) (isPath : Bool) : List String → Except UsageFault String
  | [] => .error .missingValue
  | value :: _ =>
    if old.isSome then .error .repeatedOption
    else if isPath && value.isEmpty then .error .missingValue
    else .ok value

def Draft.take (draft : Draft) (flag : Flag) (values : List String) : Except UsageFault Draft :=
  match flag with
  | .input =>
    if values.isEmpty then .error .missingValue
    else .ok { draft with patterns := some (draft.patterns.getD [] ++ values) }
  | .config => do return { draft with config := some (← single draft.config true values) }
  | .rootType => do return { draft with rootName := some (← single draft.rootName false values) }
  | .out => do return { draft with out := some (← single draft.out true values) }
  | .noOp => if draft.noOp then .error .repeatedOption else .ok { draft with noOp := true }
  | .help => .error .help

def Draft.settle (draft : Draft) : Except UsageFault Draft :=
  match draft.waiting with
  | none => .ok draft
  | some (flag, values) => { draft with waiting := none }.take flag values

def Draft.begin (draft : Draft) (flag : Flag) (attached : Option String) :
    Except UsageFault Draft := do
  match attached with
  | some value =>
    if flag.takesValue then (← draft.settle).take flag [value] else .error .unwantedValue
  | none =>
    let draft ← draft.settle
    if flag.takesValue then return { draft with waiting := some (flag, []) }
    else draft.take flag []

def Draft.addValue (draft : Draft) (value : String) : Except UsageFault Draft :=
  match draft.waiting with
  | some (.input, values) => .ok { draft with waiting := some (.input, values ++ [value]) }
  | some (flag, []) => .ok { draft with waiting := some (flag, [value]) }
  | _ => .error .unknownArgument

def Draft.readLong (verb : Verb) (draft : Draft) (chars : List Char) : Except UsageFault Draft :=
  let name := String.ofList (chars.takeWhile fun c => c ≠ '=')
  let attached := match chars.dropWhile fun c => c ≠ '=' with
    | [] => none
    | _ :: value => some (String.ofList value)
  match verb.long? name with
  | none => .error .unknownArgument
  | some flag => draft.begin flag attached

def Draft.readShort (verb : Verb) (draft : Draft) (name : Char) (rest : List Char) :
    Except UsageFault Draft :=
  match verb.short? name with
  | none => .error .unknownArgument
  | some .help => draft.begin .help none
  | some flag =>
    match rest with
    | [] => draft.begin flag none
    | '=' :: value => draft.begin flag (some (String.ofList value))
    | value => draft.begin flag (some (String.ofList value))

def Draft.finish (verb : Verb) (draft : Draft) : Except UsageFault Command := do
  let draft ← draft.settle
  match draft.patterns with
  | none => .error .missingInput
  | some patterns =>
    let inputs := ⟨patterns, draft.config⟩
    match verb with
    | .graph => return .graph inputs draft.rootName draft.out draft.noOp
    | .check => return .check inputs

def readOptions (verb : Verb) (draft : Draft) : List String → Except UsageFault Command
  | [] => draft.finish verb
  | argument :: rest =>
    match argument.toList with
    | ['-', '-'] => if rest.isEmpty then draft.finish verb else .error .unknownArgument
    | '-' :: '-' :: chars => do readOptions verb (← draft.readLong verb chars) rest
    | '-' :: name :: chars => do readOptions verb (← draft.readShort verb name chars) rest
    | _ => do readOptions verb (← draft.addValue argument) rest

def isVerb (name : String) : Bool :=
  name = "graph" || name = "check" || name = "help"

def ofArguments : List String → Except UsageFault Command
  | [] => .error .nothingGiven
  | first :: rest =>
    if first = "graph" then readOptions .graph {} rest
    else if first = "check" then readOptions .check {} rest
    else if first = "help" then
      match rest with
      | [] => .error .help
      | [name] => .error (if isVerb name then .help else .unknownCommand)
      | _ => .error .unknownCommand
    else
      match first.toList with
      | ['-', '-'] =>
        match rest with
        | [] => .error .nothingGiven
        | name :: _ => .error (if isVerb name then .unknownArgument else .unknownCommand)
      | '-' :: '-' :: chars =>
        let name := String.ofList (chars.takeWhile fun c => c ≠ '=')
        if name ≠ "help" then .error .unknownArgument
        else if '=' ∈ chars then .error .unwantedValue
        else .error .help
      | '-' :: name :: _ => .error (if name = 'h' then .help else .unknownArgument)
      | _ => .error .unknownCommand

end Command

end SchemaGraph
