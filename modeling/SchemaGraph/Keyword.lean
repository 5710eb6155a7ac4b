/-!
This module contains the schema keywords that are understood. All other fields of a schema are
ignored.
-/

namespace SchemaGraph

inductive Keyword where
  | title
  | reference
  | definitions
  | enum
  | type
  | format
  | properties
  | required
  | additionalProperties
  | items
  | oneOf
  | anyOf
  deriving DecidableEq, Inhabited

def Keyword.text : Keyword → String
  | .title => "title"
  | .reference => "$ref"
  | .definitions => "definitions"
  | .enum => "enum"
  | .type => "type"
  | .format => "format"
  | .properties => "properties"
  | .required => "required"
  | .additionalProperties => "additionalProperties"
  | .items => "items"
  | .oneOf => "oneOf"
  | .anyOf => "anyOf"

theorem Keyword.text_injective {a b : Keyword} (h : a.text = b.text) : a = b := by
  cases a <;> cases b <;> first | rfl | simp [Keyword.text] at h

end SchemaGraph
