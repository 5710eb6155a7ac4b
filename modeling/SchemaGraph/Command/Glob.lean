import SchemaGraph.Command.FileTree

/-!
This module contains glob patterns. In a pattern `?` stands for one character, `*` for any number of
them, a bracket for one character of a set or outside of it, and the component `**` for any number
of nested directories. All other characters stand for themselves. The files that match a pattern are
listed directory by directory in the order of their names.
-/

namespace SchemaGraph

namespace Glob

inductive Span where
  | one (c : Char)
  | range (first last : Char)

inductive Token where
  | literal (c : Char)
  | anyOne
  | anyMany
  | anyDirectories
  | within (set : List Span)
  | except (set : List Span)

abbrev Pattern := List Token

inductive Flaw where
  | tooManyStars
  | crowdedStars
  | badSet
  deriving DecidableEq

def Flaw.message : Flaw → String
  | .tooManyStars => "wildcards are either regular `*` or recursive `**`"
  | .crowdedStars => "recursive wildcards must form a single path component"
  | .badSet => "invalid range pattern"

structure PatternFault where
  flaw : Flaw
  position : Nat
  deriving DecidableEq

def PatternFault.message (fault : PatternFault) : String :=
  "Pattern syntax error near position " ++ toString fault.position ++ ": " ++ fault.flaw.message

def spans : List Char → List Span
  | [] => []
  | [c] => [.one c]
  | [c, d] => [.one c, .one d]
  | c :: d :: e :: rest =>
    if d = '-' then .range c e :: spans rest else .one c :: spans (d :: e :: rest)

/--
The characters in front of the first closing bracket and those behind it. The first of the
characters belongs to the set in any case.
-/
def untilBracket? : List Char → Option (List Char × List Char)
  | [] => none
  | c :: rest =>
    let inside := rest.takeWhile fun d => d ≠ ']'
    match rest.dropWhile fun d => d ≠ ']' with
    | [] => none
    | _ :: behind => some (c :: inside, behind)

def bracket? : List Char → Option (Token × List Char)
  | '!' :: rest => (untilBracket? rest).map fun (set, behind) => (.except (spans set), behind)
  | chars => (untilBracket? chars).map fun (set, behind) => (.within (spans set), behind)

/--
Read a pattern. `position` characters have been read, the last of which is `previous`. The first
argument bounds the number of tokens.
-/
def tokensFrom : Nat → Nat → Option Char → List Char → Except PatternFault (List Token)
  | 0, _, _, _ => .ok []
  | _ + 1, _, _, [] => .ok []
  | budget + 1, position, previous, c :: rest =>
    if c = '?' then (tokensFrom budget (position + 1) (some c) rest).map (.anyOne :: ·)
    else if c = '*' then
      let stars := 1 + (rest.takeWhile fun d => d = '*').length
      let behind := rest.dropWhile fun d => d = '*'
      if stars = 1 then (tokensFrom budget (position + 1) (some c) rest).map (.anyMany :: ·)
      else if 2 < stars then .error ⟨.tooManyStars, position + 2⟩
      else if previous.any fun d => d ≠ '/' then .error ⟨.crowdedStars, position - 1⟩
      else
        match behind with
        | [] => .ok [.anyDirectories]
        | d :: more =>
          if d = '/' then
            (tokensFrom budget (position + 3) (some d) more).map (.anyDirectories :: ·)
          else .error ⟨.crowdedStars, position + 2⟩
    else if c = '[' then
      match bracket? rest with
      | none => .error ⟨.badSet, position⟩
      | some (token, behind) =>
        let width := rest.length - behind.length
        (tokensFrom budget (position + 1 + width) (some ']') behind).map (token :: ·)
    else (tokensFrom budget (position + 1) (some c) rest).map (.literal c :: ·)

def tokens (pattern : List Char) : Except PatternFault (List Token) :=
  tokensFrom (pattern.length + 1) 0 none pattern

def Span.contains (span : Span) (c : Char) : Bool :=
  match span with
  | .one d => c = d
  | .range first last => first ≤ c && c ≤ last

def someEnd (test : List Char → Bool) : List Char → Bool
  | [] => test []
  | c :: rest => test (c :: rest) || someEnd test rest

def fits : Pattern → List Char → Bool
  | [], name => name.isEmpty
  | .anyMany :: rest, name => someEnd (fits rest) name
  | .anyDirectories :: rest, name => someEnd (fits rest) name
  | _ :: _, [] => false
  | .anyOne :: rest, _ :: name => fits rest name
  | .literal d :: rest, c :: name => c = d && fits rest name
  | .within set :: rest, c :: name => (set.any fun span => span.contains c) && fits rest name
  | .except set :: rest, c :: name => !(set.any fun span => span.contains c) && fits rest name

def literal? : Pattern → Option (List Char)
  | [] => some []
  | .literal c :: rest => (literal? rest).map (c :: ·)
  | _ :: _ => none

def isRecursive (pattern : Pattern) : Bool :=
  pattern.any fun token => match token with
    | .anyDirectories => true
    | _ => false

def startsWithDot : Pattern → Bool
  | .literal c :: _ => c = '.'
  | _ => false

def join (directory name : String) : String :=
  if directory.toList.getLast? = some '/' then directory ++ name else directory ++ "/" ++ name

def joinFrom (directory name : String) : String :=
  if directory = "." then name else join directory name

structure Found where
  path : String
  spot : Spot

def isDirectory (tree : FileTree) (spot : Spot) : Bool :=
  match tree.at? spot with
  | some (.directory _) => true
  | _ => false

def entries (tree : FileTree) (spot : Spot) : List String :=
  match tree.at? spot with
  | some (.directory entries) => (entries.map Prod.fst).mergeSort fun a b => a ≤ b
  | _ => []

def emit (tree : FileTree) (onlyDirectories : Bool) (found : Found) : List String :=
  if onlyDirectories && !isDirectory tree found.spot then [] else [found.path]

mutual

def inside (tree : FileTree) (onlyDirectories : Bool) :
    Nat → List Pattern → Found → List String
  | 0, _, _ => []
  | _ + 1, [], _ => []
  | depth + 1, pattern :: rest, here =>
    match literal? pattern with
    | some name =>
      let name := String.ofList name
      match tree.enter here.spot name with
      | .ok spot => onward tree onlyDirectories depth rest ⟨joinFrom here.path name, spot⟩
      | .error _ => []
    | none =>
      let specials := if startsWithDot pattern then ["..", "."] else []
      let viaSpecial := specials.flatMap fun name =>
        match tree.enter here.spot name with
        | .ok spot =>
          if fits pattern name.toList then
            onward tree onlyDirectories depth rest ⟨join here.path name, spot⟩
          else []
        | .error _ => []
      let viaEntry := (entries tree here.spot).flatMap fun name =>
        let entry := ⟨joinFrom here.path name, FileTree.entrySpot name here.spot⟩
        visit tree onlyDirectories depth (pattern :: rest) name entry
      viaSpecial ++ viaEntry

def onward (tree : FileTree) (onlyDirectories : Bool) :
    Nat → List Pattern → Found → List String
  | 0, _, _ => []
  | depth + 1, rest, found =>
    if rest.isEmpty then emit tree onlyDirectories found
    else inside tree onlyDirectories depth rest found

def visit (tree : FileTree) (onlyDirectories : Bool) :
    Nat → List Pattern → String → Found → List String
  | 0, _, _, _ => []
  | _ + 1, [], _, _ => []
  | depth + 1, pattern :: rest, name, entry =>
    if isRecursive pattern then
      -- Neighbouring components of this kind mean the same as one.
      let behind := rest.dropWhile isRecursive
      let here := named tree onlyDirectories depth behind name entry
      if isDirectory tree entry.spot then
        (if behind.isEmpty then [entry.path] else here) ++
          inside tree onlyDirectories depth (pattern :: behind) entry
      else if behind.isEmpty then []
      else here
    else named tree onlyDirectories depth (pattern :: rest) name entry

def named (tree : FileTree) (onlyDirectories : Bool) :
    Nat → List Pattern → String → Found → List String
  | 0, _, _, _ => []
  | _ + 1, [], _, _ => []
  | depth + 1, pattern :: rest, name, entry =>
    if fits pattern name.toList then onward tree onlyDirectories depth rest entry else []

end

def patternParts (pattern : String) : List (List Char) :=
  let parts := slashParts pattern.toList
  let parts := if isAbsolute pattern then parts.tail else parts
  if parts.getLast? = some [] then parts.dropLast else parts

def expandFrom (tree : FileTree) (start : Found) (pattern : String) :
    Except PatternFault (List String) := do
  -- The pattern has to be right as a whole, and then each of its components.
  let _ ← tokens pattern.toList
  let patterns ← (patternParts pattern).mapM tokens
  let onlyDirectories := pattern.toList.getLast? = some '/'
  let depth := 4 * (patterns.length + 1) * (tree.size + 2)
  return inside tree onlyDirectories depth patterns start

def expand (tree : FileTree) (pattern : String) : Except PatternFault (List String) :=
  expandFrom tree (if isAbsolute pattern then ⟨"/", .outside⟩ else ⟨".", .inside []⟩) pattern

structure Region where
  names : List String
  levels : Nat
  deriving DecidableEq

/--
The levels that a pattern with nested directories may need. No path is longer.
-/
def levelLimit : Nat := 4096

def leadingNames (parts : List (List Char)) : List String :=
  let leading := parts.dropLast.takeWhile fun part =>
    part.all fun c => c ≠ '*' ∧ c ≠ '?' ∧ c ≠ '['
  leading.map String.ofList

/--
The region in which all matches of a pattern lie. Relative patterns start at the directory that
`home` names.
-/
def region (home : List String) (pattern : String) : Region :=
  let parts := patternParts pattern
  let home := if isAbsolute pattern then [] else home
  let ups := (parts.filter fun part => part = ['.', '.']).length
  let isDeep := parts.any fun part => part = ['*', '*']
  if ups = 0 then
    let leading := leadingNames parts
    let names := leading.filter fun name => name ≠ "" ∧ name ≠ "."
    ⟨home ++ names, if isDeep then levelLimit else parts.length - leading.length⟩
  else
    ⟨home.take (home.length - ups), if isDeep then levelLimit else parts.length + ups⟩

example : region ["home"] "data/v[12]/*.json" = ⟨["home", "data"], 2⟩ := by decide +kernel

example : region ["home"] "/data/**/*.json" = ⟨["data"], levelLimit⟩ := by decide +kernel

example : region ["home", "data"] "../*.json" = ⟨["home"], 3⟩ := by decide +kernel

def isPattern (text : String) : Bool :=
  text.toList.any fun c => c = '*' || c = '?' || c = '[' || c = '\x7b'

end Glob

end SchemaGraph
