import SchemaGraph.Proofs.Session.Consultation
import SchemaGraph.Proofs.Unification.Leaves

/-!
This module contains the calls that are nested in a unification, by the leaves of its types. It asks
for the unification of the values of several maps, or of the types of each field of several records,
and then for that of the items of the arrays. Each call is made in the state that the ones before it
have left, and only if they have ended with results.
-/

namespace SchemaGraph

namespace RecordMerge

def mergeField {ε σ : Type} (unifier : Unifier ε σ) (count : Nat) (loc : Location)
    (entry : String × List Handle) : ExceptT ε (StateM σ) (String × Handle) := do
  let hint := NameHint.inferred entry.1
  let joined ← unifier.unify entry.2 hint (loc.child (.property entry.1))
  let type ← if entry.2.length < count then liftM (unifier.nullable joined hint) else pure joined
  return (entry.1, type)

theorem mergeGathered_eq_collect (unifier : Unifier Fault State) (count : Nat) (loc : Location)
    (found : Entries String (List Handle)) :
    mergeGathered unifier count loc found =
      Effect.collect (found.map (mergeField unifier count loc)) := by
  induction found with
  | nil => rfl
  | cons entry rest ih =>
    simp only [mergeGathered, List.map_cons, Effect.collect, mergeField, bind_assoc, ih]
    refine bind_congr fun joined => ?_
    split <;> simp only [bind_assoc, pure_bind]

end RecordMerge

namespace Unification

open Effect

def earlierMembers (unify : Unify) (leaves : List Leaf) (hint : NameHint) (loc : Location) :
    Effect (List Handle) := do
  let object ←
    if Leaves.maps leaves = [] then joinRecords unify (Leaves.records leaves) hint loc
    else joinMaps unify (Leaves.maps leaves) hint loc
  let scalars ← primitives leaves [.bool, .integer, .double]
  let strings ← joinStrings leaves hint
  let moments ← primitives leaves [.date, .time, .dateTime]
  let enums ← joinEnums (Leaves.enums leaves) hint
  return object ++ scalars ++ strings ++ moments ++ enums

theorem members_eq_earlier (unify : Unify) (leaves : List Leaf) (hint : NameHint)
    (loc : Location) :
    members unify leaves hint loc = (do
      let earlier ← earlierMembers unify leaves hint loc
      let arrays ← joinArrays unify (Leaves.items leaves) hint loc
      return earlier ++ arrays) := by
  unfold members earlierMembers
  split <;> simp only [bind_assoc, pure_bind]

end Unification

namespace Call

open Effect Unification

variable {s : State}

inductive OfObjects (depth : Nat) (leaves : List Leaf) (hint : NameHint) (loc : Location)
    (s : State) : State × Call → Prop where
  | values {reads : List (Handle × Handle)} (hmaps : 2 ≤ (Leaves.maps leaves).length)
    (hreads : s.graph.valuesRead (Leaves.maps leaves) = reads) :
    OfObjects depth leaves hint loc s
      ({ s with journal := .joined loc reads :: s.journal },
        .unify depth (reads.map Prod.snd) hint.singular (loc.child .additionalProperties))
  | field {all : List Fields} {before after : Entries String (List Handle)}
    {entry : String × List Handle} {fields : Fields} {t : State}
    (hmaps : Leaves.maps leaves = []) (hrecords : 2 ≤ (Leaves.records leaves).length)
    (hall : filledFields s.graph loc (Leaves.records leaves) = .ok all)
    (hentry : RecordMerge.gather all = before ++ entry :: after)
    (hbefore : run (RecordMerge.mergeGathered (unifier (unifyWithin depth)) all.length loc before)
      { s with journal := .merged loc (Leaves.records leaves) :: s.journal } = (.ok fields, t)) :
    OfObjects depth leaves hint loc s
      (t, .unify depth entry.2 (.inferred entry.1) (loc.child (.property entry.1)))

inductive OfLeaves (depth : Nat) (leaves : List Leaf) (hint : NameHint) (loc : Location)
    (s : State) : State × Call → Prop where
  | objects {b : State × Call} (hobjects : OfObjects depth leaves hint loc s b) :
    OfLeaves depth leaves hint loc s b
  | items {earlier : List Handle} {t : State} (hitems : Leaves.items leaves ≠ [])
    (hbefore : (earlierMembers (unifyWithin depth) leaves hint loc).run s = (.ok earlier, t)) :
    OfLeaves depth leaves hint loc s
      (t, .unify depth (Leaves.items leaves) hint.singular (loc.child .items))

variable {depth : Nat} {leaves : List Leaf} {hint : NameHint} {loc : Location}

theorem consults_joinMaps (maps : List Handle) :
    Consults (fun ask => joinMaps (unifyingWithin ask depth) maps hint loc) s fun b =>
      2 ≤ maps.length ∧ ∃ reads, s.graph.valuesRead maps = reads ∧
        b = ({ s with journal := .joined loc reads :: s.journal },
          .unify depth (reads.map Prod.snd) hint.singular (loc.child .additionalProperties)) := by
  match maps with
  | [] => exact consults_none _ (by simp)
  | [map] => exact consults_none _ (by simp)
  | map :: other :: rest =>
    apply consults_state_bind
    apply consults_change_bind
    exact ((consults_call _).then _).congr (by simp)

theorem consults_joinRecords (records : List Handle) :
    Consults (fun ask => joinRecords (unifyingWithin ask depth) records hint loc) s fun b =>
      2 ≤ records.length ∧ ∃ all, filledFields s.graph loc records = .ok all ∧
        ∃ before entry after fields t, RecordMerge.gather all = before ++ entry :: after ∧
          run (RecordMerge.mergeGathered (unifier (unifyWithin depth)) all.length loc before)
            { s with journal := .merged loc records :: s.journal } = (.ok fields, t) ∧
          b = (t, .unify depth entry.2 (.inferred entry.1) (loc.child (.property entry.1))) := by
  match records with
  | [] => exact consults_none _ (by simp)
  | [record] => exact consults_none _ (by simp)
  | record :: other :: rest =>
    apply consults_state_bind
    apply consults_check_bind
    . rintro fault hfault b ⟨-, all, hall, -⟩
      cases hfault.symm.trans hall
    . intro all hall
      apply consults_change_bind
      unfold RecordMerge.merge
      simp only [RecordMerge.mergeGathered_eq_collect]
      have hfield (entry : String × List Handle) (t : State) :
          Consults (fun ask =>
              RecordMerge.mergeField (unifier (unifyingWithin ask depth)) all.length loc entry) t
            fun b => b =
              (t, .unify depth entry.2 (.inferred entry.1) (loc.child (.property entry.1))) := by
        unfold RecordMerge.mergeField
        dsimp only [unifier]
        exact (consults_call _).then _
      apply ((consults_collect hfield (RecordMerge.gather all)).then _).congr
      intro b
      constructor
      . intro hb
        exact ⟨by simp, all, hall, hb⟩
      . rintro ⟨-, all', hall', hb⟩
        cases hall.symm.trans hall'
        exact hb

theorem consults_joinArrays (items : List Handle) :
    Consults (fun ask => joinArrays (unifyingWithin ask depth) items hint loc) s fun b =>
      items ≠ [] ∧ b = (s, .unify depth items hint.singular (loc.child .items)) := by
  unfold joinArrays
  split
  . next hitems => exact consults_none _ (by simp [hitems])
  . next hitems => exact ((consults_call _).then _).congr (by simp [hitems])

theorem consults_earlierMembers :
    Consults (fun ask => earlierMembers (unifyingWithin ask depth) leaves hint loc) s
      (OfObjects depth leaves hint loc s) := by
  unfold earlierMembers
  split
  . next hmaps =>
    apply ((consults_joinRecords _).then _).congr
    intro b
    constructor
    . rintro ⟨hrecords, all, hall, before, entry, after, fields, t, hentry, hbefore, rfl⟩
      exact .field hmaps hrecords hall hentry hbefore
    . intro hb
      cases hb with
      | values hseveral _ =>
        rw [hmaps] at hseveral
        cases hseveral
      | field _ hrecords hall hentry hbefore =>
        exact ⟨hrecords, _, hall, _, _, _, _, _, hentry, hbefore, rfl⟩
  . next hmaps =>
    apply ((consults_joinMaps _).then _).congr
    intro b
    constructor
    . rintro ⟨hseveral, reads, hreads, rfl⟩
      exact .values hseveral hreads
    . intro hb
      cases hb with
      | values hseveral hreads => exact ⟨hseveral, _, hreads, rfl⟩
      | field hnone _ _ _ _ => exact absurd hnone hmaps

theorem consults_members :
    Consults (fun ask => members (unifyingWithin ask depth) leaves hint loc) s
      (OfLeaves depth leaves hint loc s) := by
  simp only [members_eq_earlier]
  apply (consults_earlierMembers.bind fun earlier t _ =>
    (consults_joinArrays (Leaves.items leaves)).then _).congr
  intro b
  constructor
  . rintro (hobjects | ⟨earlier, t, hbefore, hitems, rfl⟩)
    . exact .objects hobjects
    . exact .items hitems hbefore
  . intro hb
    cases hb with
    | objects hobjects => exact .inl hobjects
    | items hitems hbefore => exact .inr ⟨_, _, hbefore, hitems, rfl⟩

theorem consults_combine (types : List Handle) :
    Consults (fun ask => combine (unifyingWithin ask depth) (s.graph.leaves types) hint loc) s
      fun b =>
        ¬(Leaves.records (s.graph.leaves types) ≠ [] ∧ Leaves.maps (s.graph.leaves types) ≠ []) ∧
        Leaves.has (s.graph.leaves types) .any = false ∧
        OfLeaves depth (s.graph.leaves types) hint loc s b := by
  unfold combine
  split
  . next hclash => exact consults_none _ (by simp [hclash])
  . next hclash =>
    split
    . next hany => exact consults_none _ (by simp [hany])
    . next hany => exact (consults_members.then _).congr (by simp [hclash, hany])

end Call

end SchemaGraph
