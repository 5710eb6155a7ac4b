import SchemaGraph.Entries
import SchemaGraph.Text.Slashed

/-!
This module contains file trees: the files under a working directory, with the paths that lead to
them and the ways in which reading and writing fail. Of what lies outside the working directory
nothing is known. It looks like an empty directory and forgets what is written there.
-/

namespace SchemaGraph

inductive AccessFault where
  | notFound
  | alreadyExists
  | notADirectory
  | isADirectory
  | other (text : String)
  deriving DecidableEq, Inhabited

def AccessFault.message : AccessFault → String
  | .notFound => "No such file or directory (os error 2)"
  | .alreadyExists => "File exists (os error 17)"
  | .notADirectory => "Not a directory (os error 20)"
  | .isADirectory => "Is a directory (os error 21)"
  | .other text => text

def components (path : String) : List String :=
  (slashParts path.toList).map String.ofList

def parentComponents (path : String) : List String :=
  ((components path).filter fun c => c ≠ "" ∧ c ≠ ".").dropLast

def isAbsolute (path : String) : Bool :=
  path.toList.head? = some '/'

inductive FileTree where
  | file (text : String)
  | directory (entries : List (String × FileTree))
  deriving Inhabited

inductive Spot where
  | inside (names : List String)
  | outside
  deriving DecidableEq

namespace FileTree

def below? : FileTree → List String → Option FileTree
  | tree, [] => some tree
  | .file _, _ :: _ => none
  | .directory entries, name :: rest =>
    match Entries.get? entries name with
    | some tree => tree.below? rest
    | none => none

def at? (tree : FileTree) : Spot → Option FileTree
  | .inside names => tree.below? names
  | .outside => some (.directory [])

mutual

def size : FileTree → Nat
  | .file _ => 1
  | .directory entries => sizeEntries entries + 1

def sizeEntries : List (String × FileTree) → Nat
  | [] => 0
  | (_, tree) :: rest => size tree + sizeEntries rest

end

def enter (tree : FileTree) (spot : Spot) (component : String) : Except AccessFault Spot :=
  match tree.at? spot with
  | none => .error .notFound
  | some (.file _) => .error .notADirectory
  | some (.directory entries) =>
    if component = "" ∨ component = "." then .ok spot
    else match spot with
      | .outside => if component = ".." then .ok .outside else .error .notFound
      | .inside names =>
        if component = ".." then
          if names = [] then .ok .outside else .ok (.inside names.dropLast)
        else if (Entries.get? entries component).isSome then .ok (.inside (names ++ [component]))
        else .error .notFound

def follow (tree : FileTree) : Spot → List String → Except AccessFault Spot
  | spot, [] => .ok spot
  | spot, component :: rest => do
    let spot ← tree.enter spot component
    tree.follow spot rest

def origin (path : String) : Spot :=
  if isAbsolute path then .outside else .inside []

def resolve (tree : FileTree) (path : String) : Except AccessFault Spot :=
  if path = "" then .error .notFound else tree.follow (origin path) (components path)

def read (tree : FileTree) (path : String) : Except AccessFault String := do
  match tree.at? (← tree.resolve path) with
  | some (.file text) => .ok text
  | some (.directory _) => .error .isADirectory
  | none => .error .notFound

def place (new : FileTree) : List String → FileTree → FileTree
  | [], _ => new
  | _ :: _, .file text => .file text
  | name :: rest, .directory entries =>
    let old := (Entries.get? entries name).getD (.directory [])
    .directory (Entries.put entries name (place new rest old))

def placeAt (tree new : FileTree) : Spot → FileTree
  | .inside names => place new names tree
  | .outside => tree

def entrySpot (name : String) : Spot → Spot
  | .inside names => .inside (names ++ [name])
  | .outside => .outside

def makeDirectories (tree : FileTree) : Spot → List String → Except AccessFault FileTree
  | _, [] => .ok tree
  | spot, component :: rest =>
    match tree.enter spot component with
    | .ok next =>
      match tree.at? next with
      | some (.file _) => .error (if rest = [] then .alreadyExists else .notADirectory)
      | _ => tree.makeDirectories next rest
    | .error .notFound =>
      let next := entrySpot component spot
      (tree.placeAt (.directory []) next).makeDirectories next rest
    | .error fault => .error fault

def write (tree : FileTree) (path text : String) : Except AccessFault FileTree := do
  if path = "" then .error .notFound
  else
    let parts := components path
    let named := (parts.reverse.dropWhile fun c => c = "").reverse
    let last := named.getLast?.getD "."
    let parent ← tree.follow (origin path) named.dropLast
    match tree.at? parent with
    | none => .error .notFound
    | some (.file _) => .error .notADirectory
    | some (.directory entries) =>
      if named.length < parts.length ∨ last = "." ∨ last = ".." then .error .isADirectory
      else
        match Entries.get? entries last with
        | some (.directory _) => .error .isADirectory
        | _ => .ok (tree.placeAt (.file text) (entrySpot last parent))

mutual

def filesFrom (base : String) : FileTree → List (String × String)
  | .file text => [(base, text)]
  | .directory entries => filesOfEntries base entries

def filesOfEntries (base : String) : List (String × FileTree) → List (String × String)
  | [] => []
  | (name, tree) :: rest =>
    filesFrom (if base = "" then name else base ++ "/" ++ name) tree ++ filesOfEntries base rest

end

def files (tree : FileTree) : List (String × String) :=
  tree.filesFrom ""

def ofFiles (files : List (String × String)) : FileTree :=
  files.foldl (fun tree file => place (.file file.2) (components file.1) tree) (.directory [])

end FileTree

end SchemaGraph
