import SchemaGraph.Entries

/-!
This module contains JSON values. The fields of an object keep the order in which the document
writes them, because property order is part of what a schema says. Numbers are integers or
doubles, and a double is kept by its bits, so that two values are equal exactly when they read
and print alike.
-/

namespace SchemaGraph

structure Double where
  bits : UInt64
  deriving DecidableEq, Inhabited

inductive Json where
  | null
  | bool (value : Bool)
  | integer (value : Int)
  | double (value : Double)
  | string (value : String)
  | array (elements : List Json)
  | object (fields : List (String × Json))
  deriving Inhabited

namespace Json

def field? : Json → String → Option Json
  | .object fields, key => Entries.get? fields key
  | _, _ => none

def string? : Json → Option String
  | .string text => some text
  | _ => none

def array? : Json → Option (List Json)
  | .array elements => some elements
  | _ => none

def object? : Json → Option (Entries String Json)
  | .object fields => some fields
  | _ => none

def isObject : Json → Bool
  | .object _ => true
  | _ => false

mutual

def size : Json → Nat
  | .array elements => sizeElements elements + 1
  | .object fields => sizeFields fields + 1
  | _ => 1

def sizeElements : List Json → Nat
  | [] => 0
  | element :: rest => size element + sizeElements rest

def sizeFields : List (String × Json) → Nat
  | [] => 0
  | (_, value) :: rest => size value + sizeFields rest

end

theorem size_pos (value : Json) : 0 < value.size := by
  cases value <;> simp [size]

end Json

end SchemaGraph
