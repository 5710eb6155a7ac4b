import SchemaGraph.Command.Arguments
import SchemaGraph.Command.Glob
import SchemaGraph.Conversion
import SchemaGraph.Graph.Description
import SchemaGraph.Json.Printer
import SchemaGraph.Json.Reader

/-!
This module contains the run of a command. What it needs from its surroundings is a host: reading
and writing files, finding the files that match a pattern, and printing. A run ends with success or
with the list of what went wrong, from the outermost circumstance to the innermost cause.
-/

namespace SchemaGraph

structure Host (m : Type → Type) where
  /-- The text of a file. -/
  read : String → m (Except AccessFault String)
  /-- Write a file. -/
  write : String → String → m (Except AccessFault Unit)
  /-- Make the directories in which a file lies. -/
  makeParents : String → m (Except AccessFault Unit)
  /-- The paths that match a pattern. -/
  expand : String → m (Except Glob.PatternFault (List String))
  /-- Print a text. -/
  print : String → m Unit

abbrev Chain := List String

namespace Command

variable {m : Type → Type} [Monad m]

def readFile (host : Host m) (circumstance : Chain) (path : String) : ExceptT Chain m String :=
  ExceptT.mk do
    match ← host.read path with
    | .ok text => return .ok text
    | .error fault => return .error (circumstance ++ [fault.message])

def loadOptions (host : Host m) (inputs : Inputs) : ExceptT Chain m Options :=
  match inputs.config with
  | none => return {}
  | some path => do
    let circumstance := "failed to load options from " ++ path
    let text ← ExceptT.mk do
      match ← host.read path with
      | .ok text => return .ok text
      | .error fault =>
        return .error [circumstance, "IO error: " ++ fault.message, fault.message]
    match Options.ofText text with
    | .ok options => return options
    | .error message => throw [circumstance, message]

def pathsOf (host : Host m) (input : String) : ExceptT Chain m (List String) := do
  let circumstance := "failed to resolve input file paths"
  if Glob.isPattern input then
    match ← host.expand input with
    | .error fault => throw [circumstance, fault.message]
    | .ok [] => throw [circumstance, "glob pattern matched no files: " ++ input]
    | .ok paths => return paths
  else return [input]

def resolvePaths (host : Host m) : List String → ExceptT Chain m (List String)
  | [] => return []
  | input :: rest => do
    let paths ← pathsOf host input
    return paths ++ (← resolvePaths host rest)

def loadDocument (host : Host m) (path : String) : ExceptT Chain m Json := do
  let text ← readFile host ["failed to read " ++ path] path
  match Json.ofText text with
  | .ok document => return document
  | .error message => throw ["failed to parse JSON source file (" ++ path ++ ")", message]

def describeAll (host : Host m) (options : Options) : List String → ExceptT Chain m (List Json)
  | [] => return []
  | path :: rest => do
    let document ← loadDocument host path
    match Conversion.ofDocument document options with
    | .error fault => throw ["failed to convert " ++ path, fault.message]
    | .ok conversion =>
      let description := conversion.graph.description conversion.root
      return description :: (← describeAll host options rest)

/--
The text of some descriptions: that of a single one by itself, that of several as a list.
-/
def render : List Json → String
  | [description] => description.pretty
  | descriptions => (Json.array descriptions).pretty

def deliver (host : Host m) (out : Option String) (text : String) : ExceptT Chain m Unit :=
  match out with
  | none => host.print (text ++ "\n")
  | some path => do
    match ← host.makeParents path with
    | .error fault => throw [fault.message]
    | .ok () =>
      match ← host.write path text with
      | .error fault => throw [fault.message]
      | .ok () => return ()

def checkAll (host : Host m) (options : Options) : List String → ExceptT Chain m Nat
  | [] => return 0
  | path :: rest => do
    let document ← loadDocument host path
    match Conversion.ofDocument document options with
    | .error fault =>
      host.print ("FAIL  " ++ path ++ ": " ++ fault.message ++ "\n")
      return (← checkAll host options rest) + 1
    | .ok conversion =>
      let count := toString conversion.graph.size
      host.print ("ok    " ++ path ++ " (" ++ count ++ " types)\n")
      checkAll host options rest

def run (host : Host m) : Command → ExceptT Chain m Unit
  | .graph inputs rootName out noOp => do
    if noOp then return ()
    else
      let options ← loadOptions host inputs
      let options := match rootName with
        | none => options
        | some name => { options with rootName := name }
      let paths ← resolvePaths host inputs.patterns
      let descriptions ← describeAll host options paths
      deliver host out (render descriptions)
  | .check inputs => do
    let options ← loadOptions host inputs
    let paths ← resolvePaths host inputs.patterns
    let failures ← checkAll host options paths
    if failures = 0 then return ()
    else
      throw [toString failures ++ " of " ++ toString paths.length ++ " schemas failed to convert"]

end Command

structure Disk where
  tree : FileTree
  printed : String

def Disk.host : Host (StateM Disk) where
  read path := fun disk => (disk.tree.read path, disk)
  write path text := fun disk =>
    match disk.tree.write path text with
    | .ok tree => (.ok (), { disk with tree })
    | .error fault => (.error fault, disk)
  makeParents path := fun disk =>
    match disk.tree.makeDirectories (FileTree.origin path) (parentComponents path) with
    | .ok tree => (.ok (), { disk with tree })
    | .error fault => (.error fault, disk)
  expand pattern := fun disk => (Glob.expand disk.tree pattern, disk)
  print text := fun disk => ((), { disk with printed := disk.printed ++ text })

end SchemaGraph
