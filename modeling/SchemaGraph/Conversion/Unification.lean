import SchemaGraph.Conversion.RecordMerge
import SchemaGraph.Conversion.State

/-!
This module contains the unification of types: given several, it finds or builds the one type that
covers them. Unions and nullables among the given types are opened first, which leaves the list of
leaves. The result has at most one member of each kind. Records are merged field by field, maps by
their values and arrays by their items, the cases of enums add up, `any` absorbs everything and null
makes the result nullable. Records and maps do not mix.
-/

namespace SchemaGraph

abbrev Leaf := Handle × Shape

namespace Graph

/--
The leaves under a handle, with unions opened and nullables opened but kept in front of what they
wrap. Handles without a node have none. Inside a graph the nesting is less deep than the number of
nodes.
-/
def opened (g : Graph) : Nat → Handle → List Leaf
  | 0, _ => []
  | depth + 1, h =>
    match g.shape? h with
    | none => []
    | some (.union members) => members.flatMap (g.opened depth)
    | some (.nullable inner) => (h, .nullable inner) :: g.opened depth inner
    | some shape => [(h, shape)]

def leaves (g : Graph) (hs : List Handle) : List Leaf :=
  hs.flatMap (g.opened (g.size + 1))

def valuesRead (g : Graph) (maps : List Handle) : List (Handle × Handle) :=
  maps.filterMap fun map => (g.valuesOf? map).map fun values => (map, values)

/--
How deep a unification may nest. What it unifies inside itself depends only on which nodes are in
its list and on the order in which they come first, and there are fewer such lists than this. One
that nests deeper comes to the same list twice, and then it goes round forever.
-/
def unificationBound (g : Graph) : Nat :=
  Nat.pow (g.size + 1) (g.size + 1)

theorem size_lt_unificationBound (g : Graph) : g.size < g.unificationBound :=
  Nat.le_self_pow (Nat.succ_ne_zero _) _

end Graph

namespace Leaves

def has (leaves : List Leaf) (kind : Primitive) : Bool :=
  leaves.any fun leaf => leaf.2 = .primitive kind

def hasString (leaves : List Leaf) : Bool :=
  leaves.any fun leaf => leaf.2 = .string

def hasNull (leaves : List Leaf) : Bool :=
  leaves.any fun leaf =>
    match leaf.2 with
    | .primitive .null => true
    | .nullable _ => true
    | _ => false

def maps (leaves : List Leaf) : List Handle :=
  distinct <| leaves.filterMap fun leaf =>
    match leaf.2 with
    | .map _ => some leaf.1
    | _ => none

def records (leaves : List Leaf) : List Handle :=
  distinct <| leaves.filterMap fun leaf =>
    match leaf.2 with
    | .record _ => some leaf.1
    | _ => none

def items (leaves : List Leaf) : List Handle :=
  leaves.filterMap fun leaf =>
    match leaf.2 with
    | .array items => some items
    | _ => none

def enums (leaves : List Leaf) : List (List String) :=
  leaves.filterMap fun leaf =>
    match leaf.2 with
    | .enum cases => some cases
    | _ => none

end Leaves

namespace Unification

open Effect

abbrev Unify := List Handle → NameHint → Location → Effect Handle

def primitives (leaves : List Leaf) (kinds : List Primitive) : Effect (List Handle) :=
  collect <| (kinds.filter fun kind => Leaves.has leaves kind).map fun kind =>
    build fun g => g.addPrimitive kind

def joinMaps (unify : Unify) (maps : List Handle) (hint : NameHint) (loc : Location) :
    Effect (List Handle) :=
  match maps with
  | [] => pure []
  | [map] => pure [map]
  | maps => do
    let reads := (← state).graph.valuesRead maps
    note (.joined loc reads)
    let values ← unify (reads.map Prod.snd) hint.singular (loc.child .additionalProperties)
    let map ← build fun g => g.addMap values
    return [map]

def filledFields (g : Graph) (loc : Location) : List Handle → Except Fault (List Fields)
  | [] => .ok []
  | h :: rest =>
    match g.shape? h with
    | some (.record (.filled fields)) => (filledFields g loc rest).map (fields :: ·)
    | _ => .error (.unresolvedRecursion .unfinishedRecord loc)

def unifier (unify : Unify) : Unifier Fault State where
  unify := unify
  nullable h hint := fun s =>
    ((s.graph.addNullable h hint).1, { s with graph := (s.graph.addNullable h hint).2 })

def joinRecords (unify : Unify) (records : List Handle) (hint : NameHint) (loc : Location) :
    Effect (List Handle) :=
  match records with
  | [] => pure []
  | [record] => pure [record]
  | records => do
    let all ← check (filledFields (← state).graph loc records)
    note (.merged loc records)
    let fields ← RecordMerge.merge (unifier unify) loc all
    let record ← build fun g => g.addRecord hint (.filled fields)
    return [record]

def joinStrings (leaves : List Leaf) (hint : NameHint) : Effect (List Handle) :=
  if Leaves.hasString leaves then collect [build fun g => g.addString hint] else pure []

def joinEnums (enums : List (List String)) (hint : NameHint) : Effect (List Handle) :=
  if enums = [] then pure [] else collect [build fun g => g.addEnum hint enums.flatten]

def joinArrays (unify : Unify) (items : List Handle) (hint : NameHint) (loc : Location) :
    Effect (List Handle) :=
  if items = [] then pure []
  else do
    let joined ← unify items hint.singular (loc.child .items)
    let array ← build fun g => g.addArray joined
    return [array]

def members (unify : Unify) (leaves : List Leaf) (hint : NameHint) (loc : Location) :
    Effect (List Handle) := do
  let object ←
    if Leaves.maps leaves = [] then joinRecords unify (Leaves.records leaves) hint loc
    else joinMaps unify (Leaves.maps leaves) hint loc
  let scalars ← primitives leaves [.bool, .integer, .double]
  let strings ← joinStrings leaves hint
  let moments ← primitives leaves [.date, .time, .dateTime]
  let enums ← joinEnums (Leaves.enums leaves) hint
  let arrays ← joinArrays unify (Leaves.items leaves) hint loc
  return object ++ scalars ++ strings ++ moments ++ enums ++ arrays

def package (members : List Handle) (withNull : Bool) (hint : NameHint) : Effect Handle := do
  match members with
  | [] => build fun g => g.addPrimitive .null
  | members =>
    let core ← match members with
      | [member] => pure member
      | members => build fun g => g.addUnion hint members
    if withNull then build fun g => g.addNullable core hint else return core

def combine (unify : Unify) (leaves : List Leaf) (hint : NameHint) (loc : Location) :
    Effect Handle := do
  if Leaves.records leaves ≠ [] ∧ Leaves.maps leaves ≠ [] then fail .recordMapConflict
  else if Leaves.has leaves .any then build fun g => g.addPrimitive .any
  else
    let found ← members unify leaves hint loc
    package found (Leaves.hasNull leaves) hint

def unifyWithin : Nat → Unify
  | _, [], _, _ => fail .nothingToUnify
  | _, [h], _, _ => pure h
  | 0, _ :: _ :: _, _, loc => fail (.endlessUnification loc)
  | depth + 1, h :: k :: hs, hint, loc => do
    combine (unifyWithin depth) ((← state).graph.leaves (h :: k :: hs)) hint loc

def unify (hs : List Handle) (hint : NameHint) (loc : Location) : Effect Handle := do
  unifyWithin (← state).graph.unificationBound hs hint loc

end Unification

end SchemaGraph
