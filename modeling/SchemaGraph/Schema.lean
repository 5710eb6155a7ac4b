import SchemaGraph.Fault
import SchemaGraph.Json.Printer

/-!
This module contains the view of a JSON object as a schema. Each accessor reads one keyword, says
which forms of it are admitted and ignores everything else.
-/

namespace SchemaGraph

structure Schema where
  fields : Entries String Json

inductive Additional where
  | allowed
  | forbidden
  | schema (values : Json)

namespace Schema

def ofJson (value : Json) (loc : Location) : Except Fault Schema :=
  match value with
  | .object fields => .ok ⟨fields⟩
  | _ => .error (.notAnObject loc)

def get? (s : Schema) (keyword : Keyword) : Option Json :=
  s.fields.get? keyword.text

def strings? : List Json → Option (List String)
  | [] => some []
  | .string text :: rest => (strings? rest).map (text :: ·)
  | _ :: _ => none

def title? (s : Schema) : Option String :=
  (s.get? .title).bind Json.string?

def reference? (s : Schema) : Except Fault (Option String) :=
  match s.get? .reference with
  | none => .ok none
  | some (.string text) => .ok (some text)
  | some other => .error (.malformedReference other.compact)

def cases? (s : Schema) (loc : Location) : Except Fault (Option (List String)) :=
  match s.get? .enum with
  | none => .ok none
  | some (.array cases) =>
    match strings? cases with
    | some cases => .ok (some cases)
    | none => .error (.enumNotStrings loc)
  | some _ => .error (.enumNotStrings loc)

def types? (s : Schema) (loc : Location) : Except Fault (Option (List String)) :=
  match s.get? .type with
  | none => .ok none
  | some (.string name) => .ok (some [name])
  | some (.array names) =>
    match strings? names with
    | some [] => .error (.noTypeNames loc)
    | some names => .ok (some names)
    | none => .error (.badKeyword .type loc)
  | some _ => .error (.badKeyword .type loc)

def arrayAt? (s : Schema) (keyword : Keyword) (loc : Location) :
    Except Fault (Option (List Json)) :=
  match s.get? keyword with
  | none => .ok none
  | some (.array elements) => .ok (some elements)
  | some _ => .error (.badKeyword keyword loc)

def oneOf? (s : Schema) (loc : Location) : Except Fault (Option (List Json)) :=
  s.arrayAt? .oneOf loc

def anyOf? (s : Schema) (loc : Location) : Except Fault (Option (List Json)) :=
  s.arrayAt? .anyOf loc

def properties? (s : Schema) (loc : Location) : Except Fault (Option (Entries String Json)) :=
  match s.get? .properties with
  | none => .ok none
  | some (.object fields) => .ok (some fields)
  | some _ => .error (.badKeyword .properties loc)

def required (s : Schema) (loc : Location) : Except Fault (List String) :=
  match s.get? .required with
  | none => .ok []
  | some (.array names) =>
    match strings? names with
    | some names => .ok names
    | none => .error (.badKeyword .required loc)
  | some _ => .error (.badKeyword .required loc)

def additional? (s : Schema) : Option Additional :=
  match s.get? .additionalProperties with
  | some (.bool true) => some .allowed
  | some (.bool false) => some .forbidden
  | some (.object fields) => some (.schema (.object fields))
  | _ => none

def items? (s : Schema) (loc : Location) : Except Fault (Option Json) :=
  match s.get? .items with
  | none => .ok none
  | some (.object fields) => .ok (some (.object fields))
  | some _ => .error (.badKeyword .items loc)

def format? (s : Schema) : Option String :=
  (s.get? .format).bind Json.string?

end Schema

end SchemaGraph
