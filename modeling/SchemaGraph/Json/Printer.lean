import SchemaGraph.Json.Double

/-!
This module contains the two written forms of a JSON value: the compact form, which has no blanks,
and the indented form, which puts each element and each field on a line of its own.
-/

namespace SchemaGraph

namespace Json

def hexDigit (n : Nat) : Char :=
  if n < 10 then Char.ofNat ('0'.toNat + n) else Char.ofNat ('a'.toNat + (n - 10))

def escape (c : Char) : List Char :=
  if c = '"' then ['\\', '"']
  else if c = '\\' then ['\\', '\\']
  else if c = '\x08' then ['\\', 'b']
  else if c = '\t' then ['\\', 't']
  else if c = '\n' then ['\\', 'n']
  else if c = '\x0c' then ['\\', 'f']
  else if c = '\r' then ['\\', 'r']
  else if c.toNat < 0x20 then
    ['\\', 'u', '0', '0', hexDigit (c.toNat / 16), hexDigit (c.toNat % 16)]
  else [c]

def quote (text : String) : String :=
  String.ofList ('"' :: text.toList.flatMap escape ++ ['"'])

mutual

def compact : Json → String
  | .null => "null"
  | .bool value => if value then "true" else "false"
  | .integer value => toString value
  | .double value => value.text
  | .string value => quote value
  | .array elements => "[" ++ compactElements elements ++ "]"
  | .object fields => "\x7b" ++ compactFields fields ++ "\x7d"

def compactElements : List Json → String
  | [] => ""
  | [element] => compact element
  | element :: rest => compact element ++ "," ++ compactElements rest

def compactFields : List (String × Json) → String
  | [] => ""
  | [(key, value)] => quote key ++ ":" ++ compact value
  | (key, value) :: rest => quote key ++ ":" ++ compact value ++ "," ++ compactFields rest

end

def newline (depth : Nat) : String :=
  String.ofList ('\n' :: List.replicate (2 * depth) ' ')

mutual

def indented (depth : Nat) : Json → String
  | .array [] => "[]"
  | .array (element :: rest) =>
    "[" ++ newline (depth + 1) ++ indented (depth + 1) element ++
      indentedElements (depth + 1) rest ++ newline depth ++ "]"
  | .object [] => "\x7b\x7d"
  | .object ((key, value) :: rest) =>
    "\x7b" ++ newline (depth + 1) ++ quote key ++ ": " ++ indented (depth + 1) value ++
      indentedFields (depth + 1) rest ++ newline depth ++ "\x7d"
  | .null => "null"
  | .bool value => if value then "true" else "false"
  | .integer value => toString value
  | .double value => value.text
  | .string value => quote value

def indentedElements (depth : Nat) : List Json → String
  | [] => ""
  | element :: rest =>
    "," ++ newline depth ++ indented depth element ++ indentedElements depth rest

def indentedFields (depth : Nat) : List (String × Json) → String
  | [] => ""
  | (key, value) :: rest =>
    "," ++ newline depth ++ quote key ++ ": " ++ indented depth value ++
      indentedFields depth rest

end

def pretty (value : Json) : String :=
  indented 0 value

end Json

end SchemaGraph
