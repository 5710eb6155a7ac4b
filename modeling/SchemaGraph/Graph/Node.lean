import SchemaGraph.Entries
import SchemaGraph.NameHint
import SchemaGraph.Text.Digits

/-!
This module contains the nodes of a type graph. A node has a shape, which refers to other nodes by
their handles, and possibly a name. The content of a map or a record may be left open when the node
is made and filled in later, which is what lets a type refer to itself.
-/

namespace SchemaGraph

structure Handle where
  index : Nat
  deriving DecidableEq, Inhabited

def Handle.text (h : Handle) : String :=
  "t" ++ toString h.index

theorem Handle.text_injective {a b : Handle} (h : a.text = b.text) : a = b := by
  obtain ⟨n⟩ := a
  obtain ⟨m⟩ := b
  have hindex : toString n = toString m := (String.append_right_inj "t").1 h
  rw [Nat.toString_eq_ofList_toDigits, Nat.toString_eq_ofList_toDigits] at hindex
  rw [toDigits_inj.1 (String.ofList_injective hindex)]

inductive Primitive where
  | any
  | null
  | bool
  | integer
  | double
  | date
  | time
  | dateTime
  deriving DecidableEq, Inhabited

def Primitive.text : Primitive → String
  | .any => "any"
  | .null => "null"
  | .bool => "bool"
  | .integer => "integer"
  | .double => "double"
  | .date => "date"
  | .time => "time"
  | .dateTime => "date-time"

inductive Slot (α : Type) where
  | pending
  | filled (content : α)
  deriving DecidableEq, Inhabited

def Slot.content? {α : Type} : Slot α → Option α
  | .pending => none
  | .filled content => some content

abbrev Fields := Entries String Handle

/--
What a type is made of. The members of a union are no unions, nullables, `any` or `null`
themselves, and a nullable does not wrap `any`, `null` or another nullable.
-/
inductive Shape where
  | primitive (kind : Primitive)
  | string
  | enum (cases : List String)
  | array (items : Handle)
  | map (values : Slot Handle)
  | record (fields : Slot Fields)
  | union (members : List Handle)
  | nullable (inner : Handle)
  deriving DecidableEq, Inhabited

def Shape.children : Shape → List Handle
  | .primitive _ => []
  | .string => []
  | .enum _ => []
  | .array items => [items]
  | .map values => values.content?.toList
  | .record fields => (fields.content?.getD []).map Prod.snd
  | .union members => members
  | .nullable inner => [inner]

structure Node where
  shape : Shape
  hint : Option NameHint
  deriving DecidableEq, Inhabited

end SchemaGraph
