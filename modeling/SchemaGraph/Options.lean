import SchemaGraph.Json.Reader
import SchemaGraph.Text.Quoted

/-!
This module contains the options of a conversion and the reader of their text. The options are
written as a JSON object with the field `root_name`, or as a list of the fields in order. What
follows them in the text is ignored. A failure names the field at which it arose and the position
that the reader had come to.
-/

namespace SchemaGraph

structure Options where
  rootName : String := "Root"
  deriving DecidableEq, Inhabited

namespace Options

inductive Part where
  /-- The options as a whole. -/
  | whole
  /-- What stands between two fields. -/
  | between
  | field (name : String)
  | element (index : Nat)
  deriving DecidableEq

def Part.text : Part → String
  | .whole => "."
  | .between => "?"
  | .field name => name
  | .element index => "[" ++ toString index ++ "]"

inductive Found where
  | null
  | bool (value : Bool)
  | integer (value : Int)
  | double (value : Double)
  | string (value : String)
  | list
  | object

inductive Problem where
  | defect (defect : Json.Defect)
  | wrongType (found : Found) (expected : String)
  | unknownField (name : String)
  | repeatedField

structure Complaint where
  part : Part
  problem : Problem
  left : Nat

def Found.message : Found → String
  | .null => "null"
  | .bool value => "boolean `" ++ (if value then "true" else "false") ++ "`"
  | .integer value => "integer `" ++ toString value ++ "`"
  | .double value => "floating point `" ++ value.text ++ "`"
  | .string value => "string " ++ Quoted.text value
  | .list => "sequence"
  | .object => "map"

def Problem.message : Problem → String
  | .defect d => d.message
  | .wrongType found expected => "invalid type: " ++ found.message ++ ", expected " ++ expected
  | .unknownField name => "unknown field `" ++ name ++ "`, expected `root_name`"
  | .repeatedField => "duplicate field `root_name`"

def Complaint.message (complaint : Complaint) (text : List Char) : String :=
  "invalid options at " ++ complaint.part.text ++ ": " ++ complaint.problem.message ++ " " ++
    (Json.Position.ofLeft text complaint.left).text

def within {α : Type} (part : Part) (result : Except Json.Failure α) : Except Complaint α :=
  result.mapError fun failure => ⟨part, .defect failure.defect, failure.left⟩

def complain {α : Type} (part : Part) (problem : Problem) (chars : List Char) :
    Except Complaint α :=
  .error ⟨part, problem, Json.Position.bytes chars⟩

def wrongType {α : Type} (budget : Nat) (part : Part) (expected : String) (chars : List Char) :
    Except Complaint α :=
  match chars with
  | '[' :: _ => complain part (.wrongType .list expected) chars
  | '\x7b' :: _ => complain part (.wrongType .object expected) chars
  | _ => do
    let (value, rest) ← within part (Json.readValue budget 0 chars)
    let found := match value with
      | .null => .null
      | .bool value => .bool value
      | .integer value => .integer value
      | .double value => .double value
      | .string value => .string value
      | .array _ => .list
      | .object _ => .object
    complain part (.wrongType found expected) rest

def readText (budget : Nat) (part : Part) (chars : List Char) :
    Except Complaint (String × List Char) :=
  match Json.skipBlanks chars with
  | '"' :: rest => within part (Json.readString budget rest)
  | [] => within part (Json.failAfter .unfinishedValue [])
  | chars => wrongType budget part "a string" chars

/--
The characters behind the end of an object, as far as a reader gets that has given up on it.
-/
def leaveObject (chars : List Char) : List Char :=
  match Json.skipBlanks chars with
  | '\x7d' :: rest => rest
  | chars => chars

def readFields (budget : Nat) : Nat → Bool → Option String → List Char →
    Except Complaint (Option String)
  | 0, _, name, _ => .ok name
  | rounds + 1, first, name, chars => do
    let (more, chars) ← within .between (Json.nextKey first chars)
    if more then
      let (key, chars) ← within .between (Json.readString budget chars.tail)
      if key ≠ "root_name" then
        complain (.field key) (.unknownField key) (leaveObject chars)
      else if name.isSome then complain .whole .repeatedField (leaveObject chars)
      else
        let ((), chars) ← within .whole (Json.readColon chars)
        let (value, chars) ← readText budget (.field key) chars
        readFields budget rounds false (some value) chars
    else .ok name

def closeList (chars : List Char) : Except Complaint Unit :=
  match Json.skipBlanks chars with
  | ']' :: _ => .ok ()
  | ',' :: rest =>
    match Json.skipBlanks rest with
    | ']' :: rest => within .whole (Json.failAfter .trailingComma (']' :: rest))
    | rest => within .whole (Json.failAfter .trailingCharacters rest)
  | [] => within .whole (Json.failAfter .unfinishedList [])
  | chars => within .whole (Json.failAfter .trailingCharacters chars)

def readList (budget : Nat) (chars : List Char) : Except Complaint (Option String) := do
  let (more, chars) ← within (.element 0) (Json.nextElement true chars)
  if more then
    let (value, chars) ← readText budget (.element 0) chars
    closeList chars
    return some value
  else return none

def ofChars (chars : List Char) : Except Complaint Options := do
  let budget := chars.length + 1
  let name ← match Json.skipBlanks chars with
    | [] => within .whole (Json.failAfter .unfinishedValue [])
    | '[' :: rest => readList budget rest
    | '\x7b' :: rest => readFields budget budget true none rest
    | chars => wrongType budget .whole "struct ConvertOptions" chars
  return match name with
    | some rootName => { rootName }
    | none => {}

def ofText (text : String) : Except String Options :=
  (ofChars text.toList).mapError fun complaint => complaint.message text.toList

end Options

end SchemaGraph
