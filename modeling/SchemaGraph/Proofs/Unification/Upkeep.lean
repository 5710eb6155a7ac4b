import SchemaGraph.Proofs.Graph.Naming
import SchemaGraph.Proofs.Unification.Leaves
import SchemaGraph.Proofs.Unification.Merging

/-!
This module contains all that a unification does to a state: it asks for shared nodes, adds merged
records and makes notes of merges and joins. A property of states that survives these is kept up by
every unification, as long as the unifications nested in it do their part. The same goes for a
property of types: the types that a unification reads stand inside the ones that it is given, and
what it adds is made of these. The unifications nested in it get types from one step further inside.
-/

namespace SchemaGraph

def Fault.isClash : Fault → Bool
  | .recordMapConflict => true
  | .unresolvedRecursion .unfinishedRecord _ => true
  | _ => false

def Shape.contents : Shape → List Handle
  | .array items => [items]
  | .map values => values.content?.toList
  | .record fields => (fields.content?.getD []).map Prod.snd
  | _ => []

theorem Shape.mem_children_of_mem_contents {shape : Shape} {child : Handle}
    (hmem : child ∈ shape.contents) : child ∈ shape.children := by
  cases shape with
  | array items => exact hmem
  | map values => exact hmem
  | record fields => exact hmem
  | _ => cases hmem

theorem Graph.cases_of_valuesOf? {g : Graph} {map values : Handle}
    (hvalues : g.valuesOf? map = some values) :
    (∃ shape, g.shape? map = some shape ∧ values ∈ shape.contents) ∨
      g.shape? map = some (.map .pending) ∧ values = map := by
  unfold Graph.valuesOf? at hvalues
  split at hvalues
  . next hshape =>
    cases hvalues
    exact Or.inl ⟨_, hshape, List.mem_singleton_self _⟩
  . next hshape =>
    cases hvalues
    exact Or.inr ⟨hshape, rfl⟩
  . cases hvalues

namespace Unification

open Effect

structure Upkeep (P : Handle → Prop) (J : State → Prop) (E : Fault → State → Prop) : Prop where
  children {s h shape} : J s → P h → s.graph.shape? h = some shape →
    ∀ child ∈ shape.children, P child
  share {s} {key : Key} {hint : Option NameHint} : J s → (∀ child ∈ key.shape.children, P child) →
    hint.isSome = key.isNamed →
    P (s.graph.share key key.shape hint).1 ∧
      J { s with graph := (s.graph.share key key.shape hint).2 }
  record {s fields} (hint : NameHint) : J s → (∀ field ∈ fields, P field.2) →
    P (s.graph.addRecord hint (.filled fields)).1 ∧
      J { s with graph := (s.graph.addRecord hint (.filled fields)).2 }
  merged {s loc records} : J s → J { s with journal := .merged loc records :: s.journal }
  joined {s loc reads} : J s → (∀ read ∈ reads, P read.1) →
    J { s with journal := .joined loc reads :: s.journal }
  clash {s fault} : J s → fault.isClash = true → E fault s

def UpholdsOn (I P : Handle → Prop) (J : State → Prop) (E : Fault → State → Prop)
    (unify unify' : Unify) : Prop :=
  ∀ types hint loc s, (∀ h ∈ types, I h) → J s →
    Alike (unify types hint loc) (unify' types hint loc) (fun h t => P h ∧ J t) E s

abbrev Upholds (P : Handle → Prop) (J : State → Prop) (E : Fault → State → Prop)
    (unify unify' : Unify) : Prop :=
  UpholdsOn P P J E unify unify'

variable {I P : Handle → Prop} {J : State → Prop} {E : Fault → State → Prop} {s : State}
  {unify unify' : Unify} {leaves : List Leaf} {α : Type}

theorem alike_collect (f f' : α → Effect Handle) (as : List α)
    (hf : ∀ a ∈ as, ∀ t, J t → Alike (f a) (f' a) (fun h u => P h ∧ J u) E t) (hs : J s) :
    Alike (collect (as.map f)) (collect (as.map f'))
      (fun hs t => (∀ h ∈ hs, P h) ∧ J t) E s := by
  induction as generalizing s with
  | nil => exact alike_pure ⟨fun _ hmem => (nomatch hmem), hs⟩
  | cons a rest ih =>
    apply (hf a (List.mem_cons_self ..) s hs).next
    rintro h t ⟨hh, ht⟩
    apply (ih (fun b hb => hf b (List.mem_cons_of_mem _ hb)) ht).next
    rintro hs u ⟨hhs, hu⟩
    exact alike_pure ⟨List.forall_mem_cons.2 ⟨hh, hhs⟩, hu⟩

theorem alike_collect_single {e e' : Effect Handle}
    (he : Alike e e' (fun h t => P h ∧ J t) E s) :
    Alike (collect [e]) (collect [e']) (fun hs t => (∀ h ∈ hs, P h) ∧ J t) E s := by
  apply he.next
  rintro h t ⟨hh, ht⟩
  exact alike_pure ⟨List.forall_mem_singleton.2 hh, ht⟩

namespace Upkeep

theorem ends_share (hJ : Upkeep P J E) {key : Key} {hint : Option NameHint} (hs : J s)
    (hkey : ∀ child ∈ key.shape.children, P child) (hhint : hint.isSome = key.isNamed) :
    Ends (build fun g => g.share key key.shape hint) (fun h t => P h ∧ J t) E s :=
  alike_build (hJ.share hs hkey hhint)

theorem ends_primitive (hJ : Upkeep P J E) (kind : Primitive) (hs : J s) :
    Ends (build fun g => g.addPrimitive kind) (fun h t => P h ∧ J t) E s := by
  have hkey : ∀ child ∈ (Key.primitive kind).shape.children, P child :=
    fun _ hmem => nomatch hmem
  exact hJ.ends_share hs hkey rfl

theorem ends_string (hJ : Upkeep P J E) (hint : NameHint) (hs : J s) :
    Ends (build fun g => g.addString hint) (fun h t => P h ∧ J t) E s := by
  have hkey : ∀ child ∈ Key.string.shape.children, P child := fun _ hmem => nomatch hmem
  exact hJ.ends_share hs hkey rfl

theorem ends_enum (hJ : Upkeep P J E) (hint : NameHint) (cases : List String) (hs : J s) :
    Ends (build fun g => g.addEnum hint cases) (fun h t => P h ∧ J t) E s := by
  have hkey : ∀ child ∈ (Key.enum (distinct cases)).shape.children, P child :=
    fun _ hmem => nomatch hmem
  exact hJ.ends_share hs hkey rfl

theorem ends_array (hJ : Upkeep P J E) {items : Handle} (hitems : P items) (hs : J s) :
    Ends (build fun g => g.addArray items) (fun h t => P h ∧ J t) E s := by
  have hkey : ∀ child ∈ (Key.array items).shape.children, P child :=
    List.forall_mem_singleton.2 hitems
  exact hJ.ends_share hs hkey rfl

theorem ends_map (hJ : Upkeep P J E) {values : Handle} (hvalues : P values) (hs : J s) :
    Ends (build fun g => g.addMap values) (fun h t => P h ∧ J t) E s := by
  have hkey : ∀ child ∈ (Key.map values).shape.children, P child :=
    List.forall_mem_singleton.2 hvalues
  exact hJ.ends_share hs hkey rfl

theorem ends_union (hJ : Upkeep P J E) (hint : NameHint) {members : List Handle}
    (hmembers : ∀ h ∈ members, P h) (hs : J s) :
    Ends (build fun g => g.addUnion hint members) (fun h t => P h ∧ J t) E s := by
  have hkey : ∀ child ∈ (Key.union members).shape.children, P child := hmembers
  exact hJ.ends_share hs hkey rfl

theorem addNullable (hJ : Upkeep P J E) (hint : NameHint) {inner : Handle} (hinner : P inner)
    (hs : J s) :
    P (s.graph.addNullable inner hint).1 ∧
      J { s with graph := (s.graph.addNullable inner hint).2 } := by
  unfold Graph.addNullable
  split
  . exact ⟨hinner, hs⟩
  . have hkey : ∀ child ∈ (Key.nullable inner).shape.children, P child :=
      List.forall_mem_singleton.2 hinner
    exact hJ.share hs hkey rfl

theorem ends_nullable (hJ : Upkeep P J E) (hint : NameHint) {inner : Handle} (hinner : P inner)
    (hs : J s) :
    Ends (build fun g => g.addNullable inner hint) (fun h t => P h ∧ J t) E s :=
  alike_build (hJ.addNullable hint hinner hs)

theorem of_mem_opened (hJ : Upkeep P J E) (hs : J s) {depth : Nat} {h : Handle} (hh : P h)
    {leaf : Leaf} (hleaf : leaf ∈ s.graph.opened depth h) :
    P leaf.1 ∧ s.graph.shape? leaf.1 = some leaf.2 := by
  refine ⟨?_, (Graph.shape?_of_mem_opened hleaf).1⟩
  induction depth generalizing h with
  | zero => cases hleaf
  | succ depth ih =>
    cases hshape : s.graph.shape? h with
    | none =>
      unfold Graph.opened at hleaf
      rw [hshape] at hleaf
      cases hleaf
    | some shape =>
      have hchildren := hJ.children hs hh hshape
      rw [Graph.opened_succ depth _ hshape] at hleaf
      cases shape with
      | union members =>
        obtain ⟨member, hmember, hleaf⟩ := List.mem_flatMap.1 hleaf
        exact ih (hchildren member hmember) hleaf
      | nullable inner =>
        rcases List.mem_cons.1 hleaf with rfl | hleaf
        . exact hh
        . exact ih (hchildren inner (List.mem_singleton_self _)) hleaf
      | _ =>
        rw [List.mem_singleton.1 hleaf]
        exact hh

theorem of_mem_leaves (hJ : Upkeep P J E) (hs : J s) {types : List Handle}
    (htypes : ∀ h ∈ types, P h) {leaf : Leaf} (hleaf : leaf ∈ s.graph.leaves types) :
    P leaf.1 ∧ ∀ child ∈ leaf.2.children, P child := by
  obtain ⟨h, hmem, hopened⟩ := List.mem_flatMap.1 hleaf
  obtain ⟨hh, hshape⟩ := hJ.of_mem_opened hs (htypes h hmem) hopened
  exact ⟨hh, hJ.children hs hh hshape⟩

theorem ends_primitives (hJ : Upkeep P J E) (leaves : List Leaf) (kinds : List Primitive)
    (hs : J s) :
    Ends (primitives leaves kinds) (fun found t => (∀ h ∈ found, P h) ∧ J t) E s :=
  alike_collect _ _ _ (fun kind _ _ ht => hJ.ends_primitive kind ht) hs

theorem ends_joinStrings (hJ : Upkeep P J E) (leaves : List Leaf) (hint : NameHint) (hs : J s) :
    Ends (joinStrings leaves hint) (fun found t => (∀ h ∈ found, P h) ∧ J t) E s := by
  unfold joinStrings
  split
  . exact alike_collect_single (hJ.ends_string hint hs)
  . exact alike_pure ⟨fun _ hmem => (nomatch hmem), hs⟩

theorem ends_joinEnums (hJ : Upkeep P J E) (enums : List (List String)) (hint : NameHint)
    (hs : J s) :
    Ends (joinEnums enums hint) (fun found t => (∀ h ∈ found, P h) ∧ J t) E s := by
  unfold joinEnums
  split
  . exact alike_pure ⟨fun _ hmem => (nomatch hmem), hs⟩
  . exact alike_collect_single (hJ.ends_enum hint _ hs)

theorem alike_joinArrays (hJ : Upkeep P J E) (hunify : UpholdsOn I P J E unify unify')
    {items : List Handle} (hitems : ∀ h ∈ items, I h) (hint : NameHint) (loc : Location)
    (hs : J s) :
    Alike (joinArrays unify items hint loc) (joinArrays unify' items hint loc)
      (fun found t => (∀ h ∈ found, P h) ∧ J t) E s := by
  unfold joinArrays
  split
  . exact alike_pure ⟨fun _ hmem => (nomatch hmem), hs⟩
  . apply (hunify _ _ _ _ hitems hs).next
    rintro joined t ⟨hjoined, ht⟩
    exact alike_collect_single (hJ.ends_array hjoined ht)

theorem alike_joinMaps (hJ : Upkeep P J E) (hunify : UpholdsOn I P J E unify unify')
    {maps : List Handle} (hmaps : ∀ h ∈ maps, P h)
    (hvalues : ∀ map ∈ maps, ∀ values, s.graph.valuesOf? map = some values → I values)
    (hint : NameHint) (loc : Location) (hs : J s) :
    Alike (joinMaps unify maps hint loc) (joinMaps unify' maps hint loc)
      (fun found t => (∀ h ∈ found, P h) ∧ J t) E s := by
  unfold joinMaps
  split
  . exact alike_pure ⟨fun _ hmem => (nomatch hmem), hs⟩
  . exact alike_pure ⟨hmaps, hs⟩
  . apply alike_state_bind
    dsimp only
    apply alike_change_bind
    have hreads : ∀ read ∈ s.graph.valuesRead maps, P read.1 :=
      fun read hread => hmaps read.1 (Graph.mem_valuesRead.1 hread).1
    have hinner : ∀ values ∈ (s.graph.valuesRead maps).map Prod.snd, I values := by
      intro values hmem
      obtain ⟨⟨map, values'⟩, hread, rfl⟩ := List.mem_map.1 hmem
      obtain ⟨hmap, hread⟩ := Graph.mem_valuesRead.1 hread
      exact hvalues map hmap _ hread
    apply (hunify _ _ _ _ hinner (hJ.joined hs hreads)).next
    rintro joined t ⟨hjoined, ht⟩
    exact alike_collect_single (hJ.ends_map hjoined ht)

theorem alike_mergeGathered (hJ : Upkeep P J E) (hunify : UpholdsOn I P J E unify unify')
    (count : Nat) (loc : Location) {found : Entries String (List Handle)}
    (hfound : ∀ entry ∈ found, ∀ type ∈ entry.2, I type) (hs : J s) :
    Alike (RecordMerge.mergeGathered (unifier unify) count loc found)
      (RecordMerge.mergeGathered (unifier unify') count loc found)
      (fun fields t => (∀ field ∈ fields, P field.2) ∧ J t) E s := by
  induction found generalizing s with
  | nil => exact alike_pure ⟨fun _ hmem => (nomatch hmem), hs⟩
  | cons entry rest ih =>
    obtain ⟨name, types⟩ := entry
    have hrest : ∀ type t, P type → J t →
        Alike (RecordMerge.mergeGathered (unifier unify) count loc rest >>= fun fields =>
            pure ((name, type) :: fields))
          (RecordMerge.mergeGathered (unifier unify') count loc rest >>= fun fields =>
            pure ((name, type) :: fields))
          (fun fields t => (∀ field ∈ fields, P field.2) ∧ J t) E t := by
      intro type t htype ht
      apply (ih (fun entry hmem => hfound entry (List.mem_cons_of_mem _ hmem)) ht).next
      rintro fields u ⟨hfields, hu⟩
      exact alike_pure ⟨List.forall_mem_cons.2 ⟨htype, hfields⟩, hu⟩
    unfold RecordMerge.mergeGathered
    apply (hunify types _ _ _ (hfound _ (List.mem_cons_self ..)) hs).next
    rintro joined t ⟨hjoined, ht⟩
    dsimp only
    split
    . have hnullable : Ends (liftM ((unifier unify).nullable joined (.inferred name)))
          (fun h t => P h ∧ J t) E t := ⟨rfl, hJ.addNullable _ hjoined ht⟩
      apply Alike.next hnullable
      rintro type u ⟨htype, hu⟩
      exact hrest type u htype hu
    . rw [pure_bind, pure_bind]
      exact hrest joined t hjoined ht

theorem alike_joinRecords (hJ : Upkeep P J E) (hunify : UpholdsOn I P J E unify unify')
    {records : List Handle} (hrecords : ∀ h ∈ records, P h)
    (hfields : ∀ record ∈ records, ∀ fields,
      s.graph.shape? record = some (.record (.filled fields)) → ∀ field ∈ fields, I field.2)
    (hint : NameHint) (loc : Location) (hs : J s) :
    Alike (joinRecords unify records hint loc) (joinRecords unify' records hint loc)
      (fun found t => (∀ h ∈ found, P h) ∧ J t) E s := by
  unfold joinRecords
  split
  . exact alike_pure ⟨fun _ hmem => (nomatch hmem), hs⟩
  . exact alike_pure ⟨hrecords, hs⟩
  . apply alike_state_bind
    apply alike_check_bind
    . intro fault hfault
      rw [filledFields_eq_error hfault]
      exact hJ.clash hs rfl
    . intro all hall
      have hgathered : ∀ entry ∈ RecordMerge.gather all, ∀ type ∈ entry.2, I type := by
        rintro ⟨name, types⟩ hmem type htype
        rw [RecordMerge.eq_typesOf_of_mem_gather hmem] at htype
        obtain ⟨fields, hmem, hfield⟩ := RecordMerge.mem_typesOf.1 htype
        obtain ⟨record, hrecord, hshape⟩ := (filledFields_eq_ok hall).2 fields hmem
        exact hfields record hrecord fields hshape _ hfield
      apply alike_change_bind
      apply (hJ.alike_mergeGathered hunify _ _ hgathered (hJ.merged hs)).next
      rintro fields t ⟨hfields, ht⟩
      exact alike_collect_single (alike_build (hJ.record hint ht hfields))

theorem alike_otherMembers (hJ : Upkeep P J E) (hunify : UpholdsOn I P J E unify unify')
    (hitems : ∀ h ∈ Leaves.items leaves, I h) (hint : NameHint) (loc : Location)
    {object : List Handle} (hobject : ∀ h ∈ object, P h) (hs : J s) :
    Alike (otherMembers unify leaves hint loc object) (otherMembers unify' leaves hint loc object)
      (fun found t => (∀ h ∈ found, P h) ∧ J t) E s := by
  unfold otherMembers
  apply (hJ.ends_primitives leaves _ hs).next
  rintro scalars t ⟨hscalars, ht⟩
  apply (hJ.ends_joinStrings leaves hint ht).next
  rintro strings t ⟨hstrings, ht⟩
  apply (hJ.ends_primitives leaves _ ht).next
  rintro moments t ⟨hmoments, ht⟩
  apply (hJ.ends_joinEnums _ hint ht).next
  rintro enums t ⟨henums, ht⟩
  apply (hJ.alike_joinArrays hunify hitems hint loc ht).next
  rintro arrays t ⟨harrays, ht⟩
  apply alike_pure
  simp only [List.forall_mem_append]
  exact ⟨⟨⟨⟨⟨⟨hobject, hscalars⟩, hstrings⟩, hmoments⟩, henums⟩, harrays⟩, ht⟩

theorem alike_members (hJ : Upkeep P J E) (hunify : UpholdsOn I P J E unify unify')
    (hleaves : ∀ leaf ∈ leaves, P leaf.1 ∧ s.graph.shape? leaf.1 = some leaf.2)
    (hinner : ∀ leaf ∈ leaves, ∀ k ∈ leaf.2.contents, I k)
    (hopen : ∀ map, (map, .map .pending) ∈ leaves → I map) (hint : NameHint) (loc : Location)
    (hs : J s) :
    Alike (members unify leaves hint loc) (members unify' leaves hint loc)
      (fun found t => (∀ h ∈ found, P h) ∧ J t) E s := by
  have hmaps : ∀ h ∈ Leaves.maps leaves, P h := by
    intro h hmem
    obtain ⟨values, hleaf⟩ := Leaves.mem_maps_iff.1 hmem
    exact (hleaves _ hleaf).1
  have hvalues : ∀ map ∈ Leaves.maps leaves, ∀ values,
      s.graph.valuesOf? map = some values → I values := by
    intro map hmem values hvalues
    obtain ⟨slot, hleaf⟩ := Leaves.mem_maps_iff.1 hmem
    rcases Graph.cases_of_valuesOf? hvalues with ⟨shape, hshape, hmem⟩ | ⟨hshape, rfl⟩
    . cases (hleaves _ hleaf).2.symm.trans hshape
      exact hinner _ hleaf values hmem
    . cases (hleaves _ hleaf).2.symm.trans hshape
      exact hopen _ hleaf
  have hrecords : ∀ h ∈ Leaves.records leaves, P h := by
    intro h hmem
    obtain ⟨fields, hleaf⟩ := Leaves.mem_records_iff.1 hmem
    exact (hleaves _ hleaf).1
  have hfields : ∀ record ∈ Leaves.records leaves, ∀ fields,
      s.graph.shape? record = some (.record (.filled fields)) → ∀ field ∈ fields, I field.2 := by
    intro record hmem fields hshape field hfield
    obtain ⟨slot, hleaf⟩ := Leaves.mem_records_iff.1 hmem
    cases (hleaves _ hleaf).2.symm.trans hshape
    exact hinner _ hleaf field.2 (List.mem_map_of_mem hfield)
  have hitems : ∀ h ∈ Leaves.items leaves, I h := by
    intro items hmem
    obtain ⟨h, hleaf⟩ := Leaves.mem_items_iff.1 hmem
    exact hinner _ hleaf items (List.mem_singleton_self _)
  rw [members_eq, members_eq]
  split
  . apply (hJ.alike_joinRecords hunify hrecords hfields hint loc hs).next
    rintro object t ⟨hobject, ht⟩
    exact hJ.alike_otherMembers hunify hitems hint loc hobject ht
  . apply (hJ.alike_joinMaps hunify hmaps hvalues hint loc hs).next
    rintro object t ⟨hobject, ht⟩
    exact hJ.alike_otherMembers hunify hitems hint loc hobject ht

theorem ends_package (hJ : Upkeep P J E) {found : List Handle} (hfound : ∀ h ∈ found, P h)
    (withNull : Bool) (hint : NameHint) (hs : J s) :
    Ends (package found withNull hint) (fun h t => P h ∧ J t) E s := by
  have hnull : ∀ core t, P core → J t →
      Ends (if withNull then build fun g => g.addNullable core hint else pure core)
        (fun h t => P h ∧ J t) E t := by
    intro core t hcore ht
    split
    . exact hJ.ends_nullable hint hcore ht
    . exact alike_pure ⟨hcore, ht⟩
  unfold package
  split
  . exact hJ.ends_primitive .null hs
  . dsimp only
    split
    . rw [pure_bind]
      exact hnull _ _ (hfound _ (List.mem_singleton_self _)) hs
    . apply (hJ.ends_union hint hfound hs).next
      rintro core t ⟨hcore, ht⟩
      exact hnull core t hcore ht

theorem alike_combine_inside (hJ : Upkeep P J E) (hunify : UpholdsOn I P J E unify unify')
    {types : List Handle} (htypes : ∀ h ∈ types, P h)
    (hinner : ∀ leaf ∈ s.graph.leaves types, ∀ k ∈ leaf.2.contents, I k)
    (hopen : ∀ map, (map, .map .pending) ∈ s.graph.leaves types → I map) (hint : NameHint)
    (loc : Location) (hs : J s) :
    Alike (combine unify (s.graph.leaves types) hint loc)
      (combine unify' (s.graph.leaves types) hint loc) (fun h t => P h ∧ J t) E s := by
  unfold combine
  split
  . exact alike_fail (hJ.clash hs rfl)
  . split
    . exact hJ.ends_primitive .any hs
    . have hleaves : ∀ leaf ∈ s.graph.leaves types,
          P leaf.1 ∧ s.graph.shape? leaf.1 = some leaf.2 :=
        fun leaf hleaf => ⟨(hJ.of_mem_leaves hs htypes hleaf).1,
          (Graph.shape?_of_mem_leaves hleaf).1⟩
      apply (hJ.alike_members hunify hleaves hinner hopen hint loc hs).next
      rintro found t ⟨hfound, ht⟩
      exact hJ.ends_package hfound _ hint ht

theorem alike_combine (hJ : Upkeep P J E) (hunify : Upholds P J E unify unify')
    {types : List Handle} (htypes : ∀ h ∈ types, P h) (hint : NameHint) (loc : Location)
    (hs : J s) :
    Alike (combine unify (s.graph.leaves types) hint loc)
      (combine unify' (s.graph.leaves types) hint loc) (fun h t => P h ∧ J t) E s := by
  apply hJ.alike_combine_inside hunify htypes
  . intro leaf hleaf k hmem
    exact (hJ.of_mem_leaves hs htypes hleaf).2 k (Shape.mem_children_of_mem_contents hmem)
  . exact fun map hleaf => (hJ.of_mem_leaves hs htypes hleaf).1
  . exact hs

theorem upholds_unifyWithin (hJ : Upkeep P J E) (hfault : ∀ fault s, J s → E fault s)
    (depth : Nat) : Upholds P J E (unifyWithin depth) (unifyWithin depth) := by
  induction depth with
  | zero =>
    intro types hint loc s htypes hs
    unfold unifyWithin
    split
    . exact alike_fail (hfault _ s hs)
    . exact alike_pure ⟨htypes _ (List.mem_singleton_self _), hs⟩
    . exact alike_fail (hfault _ s hs)
    . contradiction
  | succ depth ih =>
    intro types hint loc s htypes hs
    match types with
    | [] => exact alike_fail (hfault _ s hs)
    | [h] => exact alike_pure ⟨htypes h (List.mem_singleton_self _), hs⟩
    | h :: k :: rest =>
      simp only [unifyWithin]
      apply alike_state_bind
      exact hJ.alike_combine ih htypes hint loc hs

theorem upholds_unify (hJ : Upkeep P J E) (hfault : ∀ fault s, J s → E fault s) :
    Upholds P J E Unification.unify Unification.unify := by
  intro types hint loc s htypes hs
  unfold Unification.unify
  apply alike_state_bind
  exact hJ.upholds_unifyWithin hfault _ types hint loc s htypes hs

end Upkeep

end Unification

end SchemaGraph
