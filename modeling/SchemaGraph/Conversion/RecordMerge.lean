import SchemaGraph.Graph

/-!
This module contains the merge of several records into one. The merged record has every field that
one of them has, in order of first appearance. The type of a field is the unification of its types
in the records that have it, and it is nullable when a record lacks it. The merge works for every
unifier, that is for whoever keeps the types and can join them.
-/

namespace SchemaGraph

structure Unifier (ε σ : Type) where
  /-- The type that covers all the given ones. -/
  unify : List Handle → NameHint → Location → ExceptT ε (StateM σ) Handle
  /-- The type together with null. -/
  nullable : Handle → NameHint → StateM σ Handle

namespace RecordMerge

def gatherField (found : Entries String (List Handle)) (field : String × Handle) :
    Entries String (List Handle) :=
  found.put field.1 ((found.get? field.1).getD [] ++ [field.2])

/--
The types found for each field of some records. The fields are in order of first appearance and the
types of a field in order of the records.
-/
def gather (records : List Fields) : Entries String (List Handle) :=
  records.foldl (fun found fields => fields.foldl gatherField found) []

variable {ε σ : Type}

def mergeGathered (unifier : Unifier ε σ) (count : Nat) (loc : Location) :
    Entries String (List Handle) → ExceptT ε (StateM σ) Fields
  | [] => pure []
  | (name, types) :: rest => do
    let hint := NameHint.inferred name
    let joined ← unifier.unify types hint (loc.child (.property name))
    let type ← if types.length < count then liftM (unifier.nullable joined hint) else pure joined
    let fields ← mergeGathered unifier count loc rest
    return (name, type) :: fields

def merge (unifier : Unifier ε σ) (loc : Location) (records : List Fields) :
    ExceptT ε (StateM σ) Fields :=
  mergeGathered unifier records.length loc (gather records)

end RecordMerge

end SchemaGraph
