import SchemaGraph.Graph.Node
import SchemaGraph.Keyword
import SchemaGraph.Location

/-!
This module contains the reasons why a document cannot be converted, and their wording. A fault
that a place in the document causes carries the location of that place.
-/

namespace SchemaGraph

inductive Recursion where
  /-- A location leads back to itself and no record or map lies on the way. -/
  | endlessReference
  /-- A record would have to be merged before its fields are known. -/
  | unfinishedRecord
  deriving DecidableEq, Inhabited

inductive Fault where
  /-- A reference that is not a string, or not of the form `#/definitions/name/...`. -/
  | malformedReference (text : String)
  | noDefinition (name : String) (loc : Location)
  | noProperty (name : String) (loc : Location)
  /-- A step to an alternative that does not exist. -/
  | noAlternative (keyword : Keyword) (index : Nat) (loc : Location)
  | enumNotStrings (loc : Location)
  | noTypeNames (loc : Location)
  | unknownType (name : String) (loc : Location)
  | unknownFormat (format : String) (loc : Location)
  | recordMapConflict
  | nothingToUnify
  | unresolvedRecursion (cause : Recursion) (loc : Location)
  | badKeyword (keyword : Keyword) (loc : Location)
  | notAnObject (loc : Location)
  /-- An attempt to fill in a node that has no open slot of the right kind. -/
  | noOpenSlot (target : Handle)
  /-- A unification of types that lead back to themselves without ever meeting. -/
  | endlessUnification (loc : Location)
  /-- A descent deeper than the document allows. It does not arise. -/
  | endlessDescent (loc : Location)
  deriving DecidableEq, Inhabited

def Fault.message : Fault → String
  | .malformedReference text => "could not parse schema reference `" ++ text ++ "`"
  | .noDefinition name loc => "definition `" ++ name ++ "` not found at " ++ loc.text
  | .noProperty name loc => "property `" ++ name ++ "` not found at " ++ loc.text
  | .noAlternative keyword index loc =>
    "`" ++ keyword.text ++ "` index " ++ toString index ++
      " is out of range (or not an array) at " ++ loc.text
  | .enumNotStrings loc => "enum at " ++ loc.text ++ " must be an array of strings"
  | .noTypeNames loc => "`type` at " ++ loc.text ++ " must name at least one type"
  | .unknownType name loc => "unknown type name `" ++ name ++ "` at " ++ loc.text
  | .unknownFormat format loc =>
    "unsupported string format `" ++ format ++ "` at " ++ loc.text
  | .recordMapConflict => "cannot unify a class with a map"
  | .nothingToUnify => "cannot unify an empty list of types"
  | .unresolvedRecursion _ loc =>
    "unresolvable recursion at " ++ loc.text ++ ": no class or map breaks the cycle"
  | .badKeyword keyword loc => "malformed `" ++ keyword.text ++ "` at " ++ loc.text
  | .notAnObject loc => "expected a schema object at " ++ loc.text
  | .noOpenSlot target => "type " ++ target.text ++ " was already completed"
  | .endlessUnification loc => "unification does not end at " ++ loc.text
  | .endlessDescent loc => "conversion does not end at " ++ loc.text

end SchemaGraph
