import SchemaGraph.Command.Run

/-!
This module contains the command line program: the host that works on the real file system, and the
entry point. A run that fails prints what went wrong to standard error and ends with exit code 1.
Arguments that give no command end the program with exit code 2, unless they ask for help.
-/

namespace SchemaGraph

/--
The access fault behind an error of the operating system, whose number may come negated.
-/
def accessFault : IO.Error → AccessFault
  | .noFileOrDirectory _ _ _ => .notFound
  | .alreadyExists _ _ _ => .alreadyExists
  | .inappropriateType _ code _ =>
    if code = 20 ∨ code + 20 = 0 then .notADirectory else .isADirectory
  | error => .other (toString error)

def attempt {α : Type} (access : IO α) : IO (Except AccessFault α) := do
  try
    return .ok (← access)
  catch error =>
    return .error (accessFault error)

def readText (path : String) : IO (Except AccessFault String) := do
  match ← attempt (IO.FS.readBinFile path) with
  | .error fault => return .error fault
  | .ok bytes =>
    match String.fromUTF8? bytes with
    | some text => return .ok text
    | none => return .error (.other "stream did not contain valid UTF-8")

/--
So many levels of the tree below a directory, without the texts of the files. A link counts as what
it leads to, and what cannot be listed is empty.
-/
def snapshot : Nat → String → IO FileTree
  | 0, _ => return .directory []
  | levels + 1, path => do
    let listing ← try (← IO.FS.realPath (path ++ "/")).readDir catch _ => pure #[]
    let entries ← listing.toList.mapM fun entry => do
      let tree ←
        if ← entry.path.isDir then snapshot levels (path ++ "/" ++ entry.fileName)
        else pure (.file "")
      return (entry.fileName, tree)
    return .directory entries

def snapshotRegion (levels : Nat) (path : String) : List String → IO FileTree
  | [] => snapshot levels path
  | name :: rest =>
    return .directory [(name, ← snapshotRegion levels (path ++ "/" ++ name) rest)]

def expandPattern (pattern : String) : IO (Except Glob.PatternFault (List String)) := do
  let home := (components (← IO.currentDir).toString).filter fun name => name ≠ ""
  let region := Glob.region home pattern
  let tree ← snapshotRegion region.levels "" region.names
  let start := if isAbsolute pattern then ⟨"/", .inside []⟩ else ⟨".", .inside home⟩
  return Glob.expandFrom tree start pattern

def realHost : Host IO where
  read := readText
  write path text := attempt (IO.FS.writeFile path text)
  makeParents path :=
    match parentComponents path with
    | [] => return .ok ()
    | names =>
      let directory := "/".intercalate names
      attempt (IO.FS.createDirAll (if isAbsolute path then "/" ++ directory else directory))
  expand := expandPattern
  print text := do (← IO.getStdout).putStr text

def usage : String :=
  "graph -i INPUT... [--config FILE] [--root-type NAME] [-o FILE] [--no-op]\n" ++
  "check -i INPUT... [--config FILE]"

end SchemaGraph

open SchemaGraph

def main (arguments : List String) : IO UInt32 := do
  match Command.ofArguments arguments with
  | .error .help =>
    IO.eprintln usage
    return 0
  | .error fault =>
    IO.eprintln (fault.text ++ "\n" ++ usage)
    return 2
  | .ok command =>
    match ← (Command.run realHost command).run with
    | .ok () => return 0
    | .error chain =>
      for line in chain do
        IO.eprintln line
      return 1
