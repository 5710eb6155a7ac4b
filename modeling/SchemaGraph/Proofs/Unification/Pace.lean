import SchemaGraph.Proofs.Abreast
import SchemaGraph.Proofs.Graph.Likeness
import SchemaGraph.Proofs.Graph.Naming
import SchemaGraph.Proofs.Unification.Leaves
import SchemaGraph.Proofs.Unification.Merging

/-!
This module contains the unification of the same types in two states side by side. Whether two
states stay in a relation is decided by the few things that a unification does to a state, and the
types that it reads are the same in both as long as the relation keeps the shapes of the nodes the
same. A unification that is given types gives types to every unification that is nested in it.
-/

namespace SchemaGraph

def Fault.isOfTypes : Fault → Bool
  | .recordMapConflict => true
  | .unresolvedRecursion .unfinishedRecord _ => true
  | .endlessUnification _ => true
  | _ => false

namespace Unification

open Effect

theorem run_unifyWithin_nil (depth : Nat) (hint : NameHint) (loc : Location) (s : State) :
    (unifyWithin depth [] hint loc).run s = (.error .nothingToUnify, s) := by
  simp only [unifyWithin, run_fail]

theorem run_unify_nil (hint : NameHint) (loc : Location) (s : State) :
    (unify [] hint loc).run s = (.error .nothingToUnify, s) := by
  unfold unify
  rw [run_bind, run_state]
  exact run_unifyWithin_nil _ hint loc s

/--
A relation `J` of states that two unifications of the same types keep up. They get the same names if
`named` holds and any names if it does not. A fault leaves `E`.
-/
structure Pace (named : Prop) (J : State → State → Prop) (E : Fault → State → State → Prop) :
    Prop where
  shapes {s s'} : J s s' → s.graph.SameShapes s'.graph
  share {s s'} (key : Key) {hint hint' : Option NameHint} : J s s' → (named → hint = hint') →
    hint.isSome = key.isNamed → hint'.isSome = key.isNamed →
    (s.graph.share key key.shape hint).1 = (s'.graph.share key key.shape hint').1 ∧
      J { s with graph := (s.graph.share key key.shape hint).2 }
        { s' with graph := (s'.graph.share key key.shape hint').2 }
  record {s s'} {hint hint' : NameHint} (fields : Fields) : J s s' → (named → hint = hint') →
    J { s with graph := (s.graph.addRecord hint (.filled fields)).2 }
      { s' with graph := (s'.graph.addRecord hint' (.filled fields)).2 }
  merged {s s' loc records} : J s s' → J { s with journal := .merged loc records :: s.journal }
    { s' with journal := .merged loc records :: s'.journal }
  joined {s s' loc reads} : J s s' → J { s with journal := .joined loc reads :: s.journal }
    { s' with journal := .joined loc reads :: s'.journal }
  fault {s s'} {fault : Fault} : J s s' → fault.isOfTypes = true → E fault s s'

def InPace (named : Prop) (J : State → State → Prop) (E : Fault → State → State → Prop)
    (unify unify' : Unify) : Prop :=
  ∀ types hint hint' loc s s', types ≠ [] → (named → hint = hint') → J s s' →
    Abreast (unify types hint loc) (unify' types hint' loc) (fun _ => J) E s s'

variable {named : Prop} {J : State → State → Prop} {E : Fault → State → State → Prop}
  {s s' : State} {unify unify' : Unify} {hint hint' : NameHint} {α : Type}

theorem abreast_collect (f f' : α → Effect Handle) (as : List α)
    (hf : ∀ a ∈ as, ∀ t t', J t t' → Abreast (f a) (f' a) (fun _ => J) E t t') (hs : J s s') :
    Abreast (collect (as.map f)) (collect (as.map f'))
      (fun hs t t' => hs.length = as.length ∧ J t t') E s s' := by
  induction as generalizing s s' with
  | nil => exact abreast_pure ⟨rfl, hs⟩
  | cons a rest ih =>
    apply (hf a (List.mem_cons_self ..) s s' hs).next
    intro h t t' ht
    apply (ih (fun b hb => hf b (List.mem_cons_of_mem _ hb)) ht).next
    rintro hs u u' ⟨hlength, hu⟩
    exact abreast_pure ⟨congrArg Nat.succ hlength, hu⟩

theorem abreast_collect_single {e e' : Effect Handle} (he : Abreast e e' (fun _ => J) E s s') :
    Abreast (collect [e]) (collect [e']) (fun _ => J) E s s' := by
  apply he.next
  intro h t t' ht
  exact abreast_pure ht

namespace Pace

theorem abreast_share (hJ : Pace named J E) (key : Key) {hint hint' : Option NameHint}
    (hs : J s s') (hhint : named → hint = hint') (hsome : hint.isSome = key.isNamed)
    (hsome' : hint'.isSome = key.isNamed) :
    Abreast (build fun g => g.share key key.shape hint)
      (build fun g => g.share key key.shape hint') (fun _ => J) E s s' :=
  have hshare := hJ.share key hs hhint hsome hsome'
  abreast_build hshare.1 hshare.2

theorem abreast_primitive (hJ : Pace named J E) (kind : Primitive) (hs : J s s') :
    Abreast (build fun g => g.addPrimitive kind) (build fun g => g.addPrimitive kind) (fun _ => J)
      E s s' :=
  hJ.abreast_share (.primitive kind) hs (fun _ => rfl) rfl rfl

theorem abreast_string (hJ : Pace named J E) (hhint : named → hint = hint') (hs : J s s') :
    Abreast (build fun g => g.addString hint) (build fun g => g.addString hint') (fun _ => J)
      E s s' :=
  hJ.abreast_share .string hs (fun hnamed => congrArg some (hhint hnamed)) rfl rfl

theorem abreast_enum (hJ : Pace named J E) (hhint : named → hint = hint') (cases : List String)
    (hs : J s s') :
    Abreast (build fun g => g.addEnum hint cases) (build fun g => g.addEnum hint' cases)
      (fun _ => J) E s s' :=
  hJ.abreast_share (.enum (distinct cases)) hs (fun hnamed => congrArg some (hhint hnamed))
    rfl rfl

theorem abreast_array (hJ : Pace named J E) (items : Handle) (hs : J s s') :
    Abreast (build fun g => g.addArray items) (build fun g => g.addArray items) (fun _ => J)
      E s s' :=
  hJ.abreast_share (.array items) hs (fun _ => rfl) rfl rfl

theorem abreast_map (hJ : Pace named J E) (values : Handle) (hs : J s s') :
    Abreast (build fun g => g.addMap values) (build fun g => g.addMap values) (fun _ => J)
      E s s' :=
  hJ.abreast_share (.map values) hs (fun _ => rfl) rfl rfl

theorem abreast_union (hJ : Pace named J E) (hhint : named → hint = hint')
    (members : List Handle) (hs : J s s') :
    Abreast (build fun g => g.addUnion hint members) (build fun g => g.addUnion hint' members)
      (fun _ => J) E s s' :=
  hJ.abreast_share (.union members) hs (fun hnamed => congrArg some (hhint hnamed)) rfl rfl

theorem addNullable (hJ : Pace named J E) (hhint : named → hint = hint') (inner : Handle)
    (hs : J s s') :
    (s.graph.addNullable inner hint).1 = (s'.graph.addNullable inner hint').1 ∧
      J { s with graph := (s.graph.addNullable inner hint).2 }
        { s' with graph := (s'.graph.addNullable inner hint').2 } := by
  unfold Graph.addNullable
  rw [hJ.shapes hs inner]
  split
  . exact ⟨rfl, hs⟩
  . exact hJ.share (.nullable inner) hs (fun hnamed => congrArg some (hhint hnamed)) rfl rfl

theorem abreast_nullable (hJ : Pace named J E) (hhint : named → hint = hint') (inner : Handle)
    (hs : J s s') :
    Abreast (build fun g => g.addNullable inner hint) (build fun g => g.addNullable inner hint')
      (fun _ => J) E s s' :=
  have hnullable := hJ.addNullable hhint inner hs
  abreast_build hnullable.1 hnullable.2

theorem abreast_primitives (hJ : Pace named J E) (leaves : List Leaf) (kinds : List Primitive)
    (hs : J s s') :
    Abreast (primitives leaves kinds) (primitives leaves kinds) (fun _ => J) E s s' := by
  have hkinds := abreast_collect (E := E) (fun kind => build fun g => g.addPrimitive kind) _
    (kinds.filter fun kind => Leaves.has leaves kind)
    (fun kind _ _ _ ht => hJ.abreast_primitive kind ht) hs
  exact hkinds.mono (fun _ _ _ h => h.2) (fun _ _ _ => id)

theorem abreast_joinStrings (hJ : Pace named J E) (leaves : List Leaf)
    (hhint : named → hint = hint') (hs : J s s') :
    Abreast (joinStrings leaves hint) (joinStrings leaves hint') (fun _ => J) E s s' := by
  unfold joinStrings
  split
  . exact abreast_collect_single (hJ.abreast_string hhint hs)
  . exact abreast_pure hs

theorem abreast_joinEnums (hJ : Pace named J E) (enums : List (List String))
    (hhint : named → hint = hint') (hs : J s s') :
    Abreast (joinEnums enums hint) (joinEnums enums hint') (fun _ => J) E s s' := by
  unfold joinEnums
  split
  . exact abreast_pure hs
  . exact abreast_collect_single (hJ.abreast_enum hhint _ hs)

theorem abreast_joinArrays (hJ : Pace named J E) (hunify : InPace named J E unify unify')
    (items : List Handle) (hhint : named → hint = hint') (loc : Location) (hs : J s s') :
    Abreast (joinArrays unify items hint loc) (joinArrays unify' items hint' loc) (fun _ => J)
      E s s' := by
  unfold joinArrays
  split
  . exact abreast_pure hs
  . next hitems =>
    have hsingular : named → hint.singular = hint'.singular :=
      fun hnamed => congrArg NameHint.singular (hhint hnamed)
    apply (hunify _ _ _ _ _ _ hitems hsingular hs).next
    intro joined t t' ht
    exact abreast_collect_single (hJ.abreast_array joined ht)

theorem abreast_joinMaps (hJ : Pace named J E) (hunify : InPace named J E unify unify')
    {maps : List Handle} (hmaps : ∀ map ∈ maps, ∃ values, s.graph.valuesOf? map = some values)
    (hhint : named → hint = hint') (loc : Location) (hs : J s s') :
    Abreast (joinMaps unify maps hint loc) (joinMaps unify' maps hint' loc) (fun _ => J)
      E s s' := by
  unfold joinMaps
  split
  . exact abreast_pure hs
  . exact abreast_pure hs
  . next hnil _ =>
    apply abreast_state_bind
    dsimp only
    rw [← (hJ.shapes hs).valuesRead]
    apply abreast_change_bind
    obtain ⟨map, hmap⟩ := List.exists_mem_of_ne_nil _ hnil
    obtain ⟨values, hmapvalues⟩ := hmaps map hmap
    have hread := Graph.mem_valuesRead.2 ⟨hmap, hmapvalues⟩
    have hvalues := List.ne_nil_of_mem (List.mem_map_of_mem (f := Prod.snd) hread)
    have hsingular : named → hint.singular = hint'.singular :=
      fun hnamed => congrArg NameHint.singular (hhint hnamed)
    apply (hunify _ _ _ _ _ _ hvalues hsingular (hJ.joined hs)).next
    intro joined t t' ht
    exact abreast_collect_single (hJ.abreast_map joined ht)

theorem abreast_mergeGathered (hJ : Pace named J E) (hunify : InPace named J E unify unify')
    (count : Nat) (loc : Location) {found : Entries String (List Handle)}
    (hfound : ∀ entry ∈ found, entry.2 ≠ []) (hs : J s s') :
    Abreast (RecordMerge.mergeGathered (unifier unify) count loc found)
      (RecordMerge.mergeGathered (unifier unify') count loc found) (fun _ => J) E s s' := by
  induction found generalizing s s' with
  | nil => exact abreast_pure hs
  | cons entry rest ih =>
    obtain ⟨name, types⟩ := entry
    have hrest : ∀ type t t', J t t' →
        Abreast (RecordMerge.mergeGathered (unifier unify) count loc rest >>= fun fields =>
            pure ((name, type) :: fields))
          (RecordMerge.mergeGathered (unifier unify') count loc rest >>= fun fields =>
            pure ((name, type) :: fields)) (fun _ => J) E t t' := by
      intro type t t' ht
      apply (ih (fun entry hmem => hfound entry (List.mem_cons_of_mem _ hmem)) ht).next
      intro fields u u' hu
      exact abreast_pure hu
    unfold RecordMerge.mergeGathered
    apply (hunify types _ _ _ _ _ (hfound _ (List.mem_cons_self ..)) (fun _ => rfl) hs).next
    intro joined t t' ht
    dsimp only
    split
    . have hhint : named → NameHint.inferred name = .inferred name := fun _ => rfl
      exact Abreast.next (hJ.abreast_nullable hhint joined ht) hrest
    . rw [pure_bind, pure_bind]
      exact hrest joined t t' ht

theorem filledFields_eq (hs : s.graph.SameShapes s'.graph) (loc : Location)
    (records : List Handle) :
    filledFields s.graph loc records = filledFields s'.graph loc records := by
  induction records with
  | nil => rfl
  | cons record rest ih =>
    unfold filledFields
    rw [hs record, ih]

theorem abreast_joinRecords (hJ : Pace named J E) (hunify : InPace named J E unify unify')
    (records : List Handle) (hhint : named → hint = hint') (loc : Location) (hs : J s s') :
    Abreast (joinRecords unify records hint loc) (joinRecords unify' records hint' loc)
      (fun _ => J) E s s' := by
  unfold joinRecords
  split
  . exact abreast_pure hs
  . exact abreast_pure hs
  . apply abreast_state_bind
    rw [← filledFields_eq (hJ.shapes hs)]
    have hall : Matched (fun fault => E fault s s') Eq (filledFields s.graph loc records)
        (filledFields s.graph loc records) := by
      refine Matched.self ?_ fun _ _ => rfl
      intro fault hfault
      rw [filledFields_eq_error hfault]
      exact hJ.fault hs rfl
    apply abreast_check_bind hall
    rintro all _ rfl
    apply abreast_change_bind
    have hfound : ∀ entry ∈ RecordMerge.gather all, entry.2 ≠ [] :=
      fun _ hmem => RecordMerge.ne_nil_of_mem_gather hmem
    apply (hJ.abreast_mergeGathered hunify _ _ hfound (hJ.merged hs)).next
    intro fields t t' ht
    apply abreast_collect_single
    exact abreast_build ((hJ.shapes ht).push_eq _ _) (hJ.record fields ht hhint)

theorem abreast_otherMembers (hJ : Pace named J E) (hunify : InPace named J E unify unify')
    (leaves : List Leaf) (hhint : named → hint = hint') (loc : Location) (object : List Handle)
    (hs : J s s') :
    Abreast (otherMembers unify leaves hint loc object)
      (otherMembers unify' leaves hint' loc object) (fun _ => J) E s s' := by
  unfold otherMembers
  apply (hJ.abreast_primitives leaves _ hs).next
  intro scalars t t' ht
  apply (hJ.abreast_joinStrings leaves hhint ht).next
  intro strings t t' ht
  apply (hJ.abreast_primitives leaves _ ht).next
  intro moments t t' ht
  apply (hJ.abreast_joinEnums _ hhint ht).next
  intro enums t t' ht
  apply (hJ.abreast_joinArrays hunify _ hhint loc ht).next
  intro arrays t t' ht
  exact abreast_pure ht

theorem abreast_members (hJ : Pace named J E) (hunify : InPace named J E unify unify')
    (types : List Handle) (hhint : named → hint = hint') (loc : Location) (hs : J s s') :
    Abreast (members unify (s.graph.leaves types) hint loc)
      (members unify' (s.graph.leaves types) hint' loc) (fun _ => J) E s s' := by
  have hmaps : ∀ map ∈ Leaves.maps (s.graph.leaves types),
      ∃ values, s.graph.valuesOf? map = some values := by
    intro map hmem
    obtain ⟨values, hleaf⟩ := Leaves.mem_maps_iff.1 hmem
    exact Graph.exists_valuesOf? (Graph.shape?_of_mem_leaves hleaf).1
  rw [members_eq, members_eq]
  split
  . apply (hJ.abreast_joinRecords hunify _ hhint loc hs).next
    intro object t t' ht
    exact hJ.abreast_otherMembers hunify _ hhint loc object ht
  . apply (hJ.abreast_joinMaps hunify hmaps hhint loc hs).next
    intro object t t' ht
    exact hJ.abreast_otherMembers hunify _ hhint loc object ht

theorem abreast_package (hJ : Pace named J E) (found : List Handle) (withNull : Bool)
    (hhint : named → hint = hint') (hs : J s s') :
    Abreast (package found withNull hint) (package found withNull hint') (fun _ => J) E s s' := by
  have hnull : ∀ core t t', J t t' →
      Abreast (if withNull then build fun g => g.addNullable core hint else pure core)
        (if withNull then build fun g => g.addNullable core hint' else pure core)
        (fun _ => J) E t t' := by
    intro core t t' ht
    split
    . exact hJ.abreast_nullable hhint core ht
    . exact abreast_pure ht
  unfold package
  split
  . exact hJ.abreast_primitive .null hs
  . dsimp only
    split
    . rw [pure_bind, pure_bind]
      exact hnull _ _ _ hs
    . exact (hJ.abreast_union hhint _ hs).next hnull

theorem abreast_combine (hJ : Pace named J E) (hunify : InPace named J E unify unify')
    (types : List Handle) (hhint : named → hint = hint') (loc : Location) (hs : J s s') :
    Abreast (combine unify (s.graph.leaves types) hint loc)
      (combine unify' (s'.graph.leaves types) hint' loc) (fun _ => J) E s s' := by
  rw [← (hJ.shapes hs).leaves]
  unfold combine
  split
  . exact abreast_fail (hJ.fault hs rfl)
  . split
    . exact hJ.abreast_primitive .any hs
    . apply (hJ.abreast_members hunify types hhint loc hs).next
      intro found t t' ht
      exact hJ.abreast_package found _ hhint ht

theorem inPace_unifyWithin (hJ : Pace named J E) (depth : Nat) :
    InPace named J E (unifyWithin depth) (unifyWithin depth) := by
  induction depth with
  | zero =>
    intro types hint hint' loc s s' htypes _ hs
    match types with
    | [] => exact absurd rfl htypes
    | [h] => exact abreast_pure hs
    | _ :: _ :: _ => exact abreast_fail (hJ.fault hs rfl)
  | succ depth ih =>
    intro types hint hint' loc s s' htypes hhint hs
    match types with
    | [] => exact absurd rfl htypes
    | [h] => exact abreast_pure hs
    | h :: k :: rest =>
      simp only [unifyWithin]
      apply abreast_state_bind
      exact hJ.abreast_combine ih _ hhint loc hs

theorem inPace_unify (hJ : Pace named J E) :
    InPace named J E Unification.unify Unification.unify := by
  intro types hint hint' loc s s' htypes hhint hs
  unfold Unification.unify
  apply abreast_state_bind
  rw [← (hJ.shapes hs).unificationBound]
  exact hJ.inPace_unifyWithin _ types hint hint' loc s s' htypes hhint hs

end Pace

end Unification

end SchemaGraph
