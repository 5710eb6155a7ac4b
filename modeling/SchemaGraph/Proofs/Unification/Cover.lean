import SchemaGraph.Proofs.Unification.Leaves
import SchemaGraph.Proofs.Unification.Merging

/-!
This module contains the proof that a unification covers what it unifies: in everything that the
graph can become, the result accepts each value that one of the given types accepts. That holds for
types that are not finished at the time of the unification too, because a record that is still open
is only ever passed on as it is. For maps that are still open it holds when they keep the values
that they are read with.
-/

namespace SchemaGraph

namespace Unification

open Effect

section

variable {M : Moments} {P Q : Graph → Json → Prop} {s t u : State} {r : Handle}
  {low high : Nat} {unify : Unify}

theorem builds_primitives (leaves : List Leaf) (kinds : List Primitive) (loc : Location)
    (hs : s.graph.Sound)
    (hkinds : Ascends (fun kind => (Shape.primitive kind).rank?) low high kinds) :
    Builds (primitives leaves kinds)
      (AddedAll M loc (fun _ value => ∃ kind ∈ kinds, Leaves.has leaves kind = true ∧
        kind.Fits M value) low high s) s := by
  induction kinds generalizing s low with
  | nil =>
    apply alike_pure
    exact .nil hs (by simp)
  | cons kind rest ih =>
    obtain ⟨rank, hrank, hlow, hhigh, hrest⟩ := hkinds
    unfold primitives at ih ⊢
    rw [List.filter_cons]
    split
    . apply (builds_build loc (Graph.adds_addPrimitive (M := M) hs kind)).next
        (fun _ _ h => h.1.toGrown)
      rintro r t ⟨hr, hkind, -⟩
      apply (ih hr.sound hrest).next (fun _ _ h => h.toGrown)
      intro rs u hrs
      apply alike_pure
      have hfirst : AddedAll M loc _ low (rank + 1) s [r] t :=
        hr.single (hkind.trans hrank) hlow (Nat.lt_succ_self rank)
      apply (hfirst.append hrs (by omega) (by omega)).mono
      rintro g - value ⟨kind', hkind', hhas, hfits⟩
      rcases List.mem_cons.1 hkind' with rfl | hkind'
      . exact Or.inl hfits
      . exact Or.inr ⟨kind', hkind', hhas, hfits⟩
    . next hnone =>
      have hkinds : Ascends (fun kind => (Shape.primitive kind).rank?) low high rest :=
        hrest.mono (by omega) (Nat.le_refl _)
      apply (ih hs hkinds).mono _ (fun _ _ => id)
      intro rs t hrs
      apply hrs.mono
      rintro g - value ⟨kind', hkind', hhas, hfits⟩
      rcases List.mem_cons.1 hkind' with rfl | hkind'
      . exact absurd hhas hnone
      . exact ⟨kind', hkind', hhas, hfits⟩

theorem builds_joinStrings (leaves : List Leaf) (hint : NameHint) (loc : Location)
    (hs : s.graph.Sound) :
    Builds (joinStrings leaves hint)
      (AddedAll M loc (fun _ value => Leaves.hasString leaves = true ∧
        ∃ text, value = .string text) 4 5 s) s := by
  unfold joinStrings
  split
  . apply (builds_build loc (Graph.adds_addString hs hint)).next (fun _ _ h => h.1.toGrown)
    rintro r t ⟨hr, hrank, -⟩
    apply alike_pure
    apply (hr.single hrank (by decide) (by decide)).mono
    rintro g - value ⟨-, hvalue⟩
    exact hvalue
  . next hnone =>
    apply alike_pure
    apply AddedAll.nil hs
    rintro g value ⟨hhas, -⟩
    exact hnone hhas

theorem builds_joinEnums (enums : List (List String)) (hint : NameHint) (loc : Location)
    (hs : s.graph.Sound) :
    Builds (joinEnums enums hint)
      (AddedAll M loc (fun _ value => ∃ cases ∈ enums, ∃ text ∈ cases, value = .string text)
        8 9 s) s := by
  unfold joinEnums
  split
  . next hnone =>
    apply alike_pure
    apply AddedAll.nil hs
    rw [hnone]
    simp
  . apply (builds_build loc (Graph.adds_addEnum hs hint enums.flatten)).next
      (fun _ _ h => h.1.toGrown)
    rintro r t ⟨hr, hrank, -⟩
    apply alike_pure
    apply (hr.single hrank (by decide) (by decide)).mono
    rintro g - value ⟨cases, hcases, text, htext, rfl⟩
    exact ⟨text, List.mem_flatten.2 ⟨cases, hcases, htext⟩, rfl⟩

theorem builds_joinArrays (hunify : Covering M unify) (items : List Handle) (hint : NameHint)
    (loc : Location) (hs : s.graph.Sound) (hitems : ∀ item ∈ items, s.graph.Has item) :
    Builds (joinArrays unify items hint loc)
      (AddedAll M loc (fun g value => ∃ item ∈ items, ∃ elements, value = .array elements ∧
        ∀ e ∈ elements, Accepts M g item e) 9 10 s) s := by
  unfold joinArrays
  split
  . next hnone =>
    apply alike_pure
    apply AddedAll.nil hs
    rw [hnone]
    simp
  . apply (hunify items _ _ _ hs hitems).next (fun _ _ h => h.toGrown)
    intro joined t hjoined
    apply (builds_build loc (Graph.adds_addArray (M := M) hjoined.sound hjoined.has)).next
      (fun _ _ h => h.1.toGrown)
    rintro array u ⟨harray, hrank, -⟩
    apply alike_pure
    have hgrown := hjoined.toGrown.trans harray.toGrown
    refine ⟨hgrown, .single hrank (by decide) (by decide), ?_⟩
    rintro g hg hforesees value ⟨item, hitem, elements, rfl, helements⟩
    refine ⟨array, List.mem_singleton_self _, harray.covers g hg _ ⟨hforesees, elements, rfl, ?_⟩⟩
    intro e he
    apply hjoined.covers g (harray.evolves.trans hg) e
    exact ⟨(hforesees.earlier harray.suffix).inside, item, hitem, helements e he⟩

theorem fields_of_joined {g : Graph} {loc : Location} {maps : List Handle} {map : Handle}
    {values : Slot Handle} (hjoined : .joined loc (s.graph.valuesRead maps) ∈ t.journal)
    (hforesees : t.Foresees loc g) (hmap : map ∈ maps)
    (hshape : s.graph.shape? map = some (.map values)) {value : Json}
    (hvalue : Accepts M g map value) :
    ∃ type ∈ (s.graph.valuesRead maps).map Prod.snd, ∃ fields, value = .object fields ∧
      ∀ name v, (name, v) ∈ fields → Accepts M g type v := by
  obtain ⟨type, hread⟩ := Graph.exists_valuesOf? hshape
  have hmem := Graph.mem_valuesRead.2 ⟨hmap, hread⟩
  have hfinal : g.valuesOf? map = some type := hforesees loc _ hjoined (.refl loc) map type hmem
  exact ⟨type, List.mem_map_of_mem hmem, hvalue.fields_of_valuesOf? hfinal⟩

theorem builds_joinMaps (hunify : Covering M unify) (maps : List Handle) (hint : NameHint)
    (loc : Location) (hs : s.graph.Sound)
    (hmaps : ∀ map ∈ maps, ∃ values, s.graph.shape? map = some (.map values)) :
    Builds (joinMaps unify maps hint loc) (fun found t =>
      AddedAll M loc (anyOf M maps) 0 1 s found t ∧ ∀ h, maps = [h] → h ∈ found) s := by
  unfold joinMaps
  split
  . apply alike_pure
    exact ⟨.nil hs (by simp [anyOf]), fun h hsole => nomatch hsole⟩
  . next map =>
    obtain ⟨values, hshape⟩ := hmaps map (List.mem_singleton_self _)
    apply alike_pure
    refine ⟨⟨.refl hs, .single (Graph.rank?_of_shape? hshape) (by decide) (by decide),
      fun g _ _ value hvalue => hvalue⟩, ?_⟩
    rintro h ⟨⟩
    exact List.mem_singleton_self _
  . next hmany =>
    apply alike_state_bind
    dsimp only
    apply alike_change_bind
    have hnoted : s.Grown
        { s with journal := .joined loc (s.graph.valuesRead maps) :: s.journal } :=
      .note hs (s.graph.reads_valuesRead maps)
    refine Builds.later ?_ hnoted
    apply (hunify _ _ _ _ hnoted.sound fun _ => hs.has_of_mem_valuesRead).next
      (fun _ _ h => h.toGrown)
    intro joined t hjoined
    apply (builds_build loc (Graph.adds_addMap (M := M) hjoined.sound hjoined.has)).next
      (fun _ _ h => h.1.toGrown)
    rintro map u ⟨hmap, hrank, -⟩
    apply alike_pure
    have hgrown := hnoted.trans (hjoined.toGrown.trans hmap.toGrown)
    refine ⟨⟨hgrown, .single hrank (by decide) (by decide), ?_⟩,
      fun h hsole => absurd hsole (hmany h)⟩
    rintro g hg hforesees value ⟨given, hgiven, hvalue⟩
    have hjournal := (hjoined.toGrown.trans hmap.toGrown).suffix
    obtain ⟨values, hshape⟩ := hmaps given hgiven
    obtain ⟨type, htype, fields, rfl, hfields⟩ := fields_of_joined
      (hjournal.subset (List.mem_cons_self ..)) hforesees hgiven hshape hvalue
    refine ⟨map, List.mem_singleton_self _, hmap.covers g hg _ ⟨hforesees, fields, rfl, ?_⟩⟩
    intro name v hv
    apply hjoined.covers g (hmap.evolves.trans hg)
    exact ⟨(hforesees.earlier hmap.suffix).inside, type, htype, hfields name v hv⟩

def leafOf (M : Moments) (leaves : List Leaf) (g : Graph) (value : Json) : Prop :=
  ∃ leaf ∈ leaves, (∀ inner, leaf.2 ≠ .nullable inner) ∧ leaf.2 ≠ .primitive .any ∧
    leaf.2 ≠ .primitive .null ∧ Accepts M g leaf.1 value

theorem leafOf_kinds {leaves : List Leaf} {g : Graph} {value : Json}
    (hleaves : ∀ leaf ∈ leaves, s.graph.shape? leaf.1 = some leaf.2 ∧
      ∀ members, leaf.2 ≠ .union members)
    (hevolves : s.graph.Evolves g) (hvalue : leafOf M leaves g value) :
    ((((((anyOf M (Leaves.records leaves) g value ∨ anyOf M (Leaves.maps leaves) g value) ∨
      ∃ kind ∈ [.bool, .integer, .double], Leaves.has leaves kind = true ∧ kind.Fits M value) ∨
      Leaves.hasString leaves = true ∧ ∃ text, value = .string text) ∨
      ∃ kind ∈ [.date, .time, .dateTime], Leaves.has leaves kind = true ∧ kind.Fits M value) ∨
      ∃ cases ∈ Leaves.enums leaves, ∃ text ∈ cases, value = .string text) ∨
      ∃ item ∈ Leaves.items leaves, ∃ elements, value = .array elements ∧
        ∀ e ∈ elements, Accepts M g item e) := by
  obtain ⟨⟨h, shape⟩, hleaf, hnullable, hany, hnull, haccepts⟩ := hvalue
  obtain ⟨hshape, hunion⟩ := hleaves _ hleaf
  -- The kinds stand in the order in which the members for them are added.
  cases shape with
  | primitive kind =>
    have hfits := haccepts.fits (hevolves.shape? hshape rfl)
    have hhas : Leaves.has leaves kind = true := Leaves.has_iff.2 ⟨_, hleaf, rfl⟩
    cases kind with
    | any => contradiction
    | null => contradiction
    | bool | integer | double =>
      left; left; left; left; right
      exact ⟨_, by simp, hhas, hfits⟩
    | date | time | dateTime =>
      left; left; right
      exact ⟨_, by simp, hhas, hfits⟩
  | string =>
    left; left; left; right
    exact ⟨Leaves.hasString_iff.2 ⟨_, hleaf, rfl⟩,
      haccepts.fits (hevolves.shape? hshape rfl)⟩
  | enum cases =>
    left; right
    exact ⟨cases, Leaves.mem_enums_iff.2 ⟨h, hleaf⟩,
      haccepts.fits (hevolves.shape? hshape rfl)⟩
  | array items =>
    right
    exact ⟨items, Leaves.mem_items_iff.2 ⟨h, hleaf⟩,
      haccepts.fits (hevolves.shape? hshape rfl)⟩
  | map values =>
    left; left; left; left; left; right
    exact ⟨h, Leaves.mem_maps_iff.2 ⟨values, hleaf⟩, haccepts⟩
  | record fields =>
    left; left; left; left; left; left
    exact ⟨h, Leaves.mem_records_iff.2 ⟨fields, hleaf⟩, haccepts⟩
  | union members => exact absurd rfl (hunion members)
  | nullable inner => exact absurd rfl (hnullable inner)

theorem builds_otherMembers (hunify : Covering M unify) (leaves : List Leaf) (hint : NameHint)
    (loc : Location) (hs : s.graph.Sound)
    (hleaves : ∀ leaf ∈ leaves, s.graph.shape? leaf.1 = some leaf.2 ∧
      ∀ members, leaf.2 ≠ .union members) {object : List Handle}
    (hobject : AddedAll M loc (fun g value => anyOf M (Leaves.records leaves) g value ∨
      anyOf M (Leaves.maps leaves) g value) 0 1 s object t) :
    Builds (otherMembers unify leaves hint loc object)
      (fun found u => AddedAll M loc (leafOf M leaves) 0 Shape.ranks s found u ∧
        ∀ h ∈ object, h ∈ found) t := by
  have hitems : ∀ items ∈ Leaves.items leaves, s.graph.Has items := by
    intro items hmem
    obtain ⟨h, hleaf⟩ := Leaves.mem_items_iff.1 hmem
    exact hs.inside (hleaves _ hleaf).1 items (List.mem_singleton_self _)
  have hscalars : Ascends (fun kind => (Shape.primitive kind).rank?) 1 4
      [.bool, .integer, .double] :=
    ⟨1, rfl, by decide, by decide, 2, rfl, by decide, by decide, 3, rfl, by decide, by decide,
      trivial⟩
  have hmoments : Ascends (fun kind => (Shape.primitive kind).rank?) 5 8
      [.date, .time, .dateTime] :=
    ⟨5, rfl, by decide, by decide, 6, rfl, by decide, by decide, 7, rfl, by decide, by decide,
      trivial⟩
  unfold otherMembers
  apply (builds_primitives leaves _ loc hobject.sound hscalars).next (fun _ _ h => h.toGrown)
  intro scalars t hscalars
  have hall := hobject.append hscalars (by decide) (by decide)
  apply (builds_joinStrings leaves hint loc hall.sound).next (fun _ _ h => h.toGrown)
  intro strings t hstrings
  replace hall := hall.append hstrings (by decide) (by decide)
  apply (builds_primitives leaves _ loc hall.sound hmoments).next (fun _ _ h => h.toGrown)
  intro moments t hmoments
  replace hall := hall.append hmoments (by decide) (by decide)
  apply (builds_joinEnums _ hint loc hall.sound).next (fun _ _ h => h.toGrown)
  intro enums t henums
  replace hall := hall.append henums (by decide) (by decide)
  apply (builds_joinArrays hunify _ hint loc hall.sound
    fun items hmem => hall.evolves.has items (hitems items hmem)).next (fun _ _ h => h.toGrown)
  intro arrays t harrays
  replace hall := hall.append harrays (by decide) (by decide)
  apply alike_pure
  refine ⟨hall.mono ?_, ?_⟩
  . intro g hg value hvalue
    exact leafOf_kinds hleaves (hall.evolves.trans hg) hvalue
  . intro h hh
    simp [hh]

def Leaves.Sole (leaves : List Leaf) (h : Handle) : Prop :=
  Leaves.records leaves ++ Leaves.maps leaves = [h] ∧ Leaves.has leaves .any = false

theorem builds_members (hunify : Covering M unify) (leaves : List Leaf) (hint : NameHint)
    (loc : Location) (hs : s.graph.Sound)
    (hleaves : ∀ leaf ∈ leaves, s.graph.shape? leaf.1 = some leaf.2 ∧
      ∀ members, leaf.2 ≠ .union members)
    (hmixed : Leaves.maps leaves ≠ [] → Leaves.records leaves = []) :
    Builds (members unify leaves hint loc)
      (fun found t => AddedAll M loc (leafOf M leaves) 0 Shape.ranks s found t ∧
        ∀ h, Leaves.Sole leaves h → h ∈ found) s := by
  rw [members_eq]
  split
  . next hmaps =>
    have hrecords : ∀ record ∈ Leaves.records leaves,
        ∃ fields, s.graph.shape? record = some (.record fields) := by
      intro record hmem
      obtain ⟨fields, hleaf⟩ := Leaves.mem_records_iff.1 hmem
      exact ⟨fields, (hleaves _ hleaf).1⟩
    have hsole : ∀ h, Leaves.Sole leaves h → Leaves.records leaves = [h] := by
      rintro h ⟨hobjects, -⟩
      rwa [hmaps, List.append_nil] at hobjects
    apply (builds_joinRecords hunify _ hint loc hs hrecords).next (fun _ _ h => h.1.toGrown)
    rintro object t ⟨hobject, honly⟩
    apply (builds_otherMembers hunify leaves hint loc hs hleaves (hobject.mono _)).mono _
      (fun _ _ => id)
    . rintro g - value (hvalue | ⟨map, hmap, -⟩)
      . exact hvalue
      . rw [hmaps] at hmap
        cases hmap
    . rintro found u ⟨hfound, hobjects⟩
      exact ⟨hfound, fun h hh => hobjects h (honly h (hsole h hh))⟩
  . next hmaps =>
    have hshapes : ∀ map ∈ Leaves.maps leaves,
        ∃ values, s.graph.shape? map = some (.map values) := by
      intro map hmem
      obtain ⟨values, hleaf⟩ := Leaves.mem_maps_iff.1 hmem
      exact ⟨values, (hleaves _ hleaf).1⟩
    have hsole : ∀ h, Leaves.Sole leaves h → Leaves.maps leaves = [h] := by
      rintro h ⟨hobjects, -⟩
      rwa [hmixed hmaps, List.nil_append] at hobjects
    apply (builds_joinMaps hunify _ hint loc hs hshapes).next (fun _ _ h => h.1.toGrown)
    rintro object t ⟨hobject, honly⟩
    apply (builds_otherMembers hunify leaves hint loc hs hleaves (hobject.mono _)).mono _
      (fun _ _ => id)
    . rintro g - value (⟨record, hrecord, -⟩ | hvalue)
      . rw [hmixed hmaps] at hrecord
        cases hrecord
      . exact hvalue
    . rintro found u ⟨hfound, hobjects⟩
      exact ⟨hfound, fun h hh => hobjects h (honly h (hsole h hh))⟩

theorem builds_withNull {found : List Handle} {core : Handle} (withNull : Bool) (hint : NameHint)
    {loc : Location} (hadded : Added M loc (anyOf M found) s core t)
    (hwraps : ∀ h ∈ found, t.graph.Wraps h core) :
    Builds (if withNull = true then build fun g => g.addNullable core hint else pure core)
      (fun r u => Added M loc (fun g value => withNull = true ∧ value = .null ∨
        anyOf M found g value) s r u ∧ ∀ h ∈ found, u.graph.Wraps h r) t := by
  split
  . have hadds := Graph.adds_addNullable (M := M) hadded.sound hadded.has hint
    apply (builds_build (s := t) loc hadds).mono _ (fun _ _ => id)
    rintro r u ⟨hr, -, hmake⟩
    refine ⟨⟨hadded.toGrown.trans hr.toGrown, hr.has, ?_⟩, ?_⟩
    . apply hr.covers.mono
      rintro g hg value ⟨hforesees, ⟨-, hnull⟩ | hvalue⟩
      . exact ⟨hforesees, Or.inl hnull⟩
      . refine ⟨hforesees, Or.inr (hadded.covers g (hr.evolves.trans hg) value ⟨?_, hvalue⟩)⟩
        exact hforesees.earlier hr.suffix
    . intro h hmem
      have hnullable := Graph.wraps_addNullable hadded.sound hadded.has hint (hwraps h hmem)
      rwa [hmake] at hnullable
  . next hnull =>
    apply alike_pure
    refine ⟨hadded.mono ?_, hwraps⟩
    rintro g - value (⟨hwith, -⟩ | hvalue)
    . exact absurd hwith hnull
    . exact hvalue

theorem two_le_length {found : List Handle} (hnonempty : found ≠ [])
    (hmany : ∀ member, found ≠ [member]) : 2 ≤ found.length := by
  match found with
  | [] => exact absurd rfl hnonempty
  | [member] => exact absurd rfl (hmany member)
  | _ :: _ :: _ => simp

theorem builds_package (found : List Handle) (withNull : Bool) (hint : NameHint) (loc : Location)
    (hs : s.graph.Sound) (hfound : Ascends s.graph.rank? 0 Shape.ranks found) :
    Builds (package found withNull hint) (fun r t =>
      Added M loc (fun g value => withNull = true ∧ value = .null ∨ anyOf M found g value) s r t ∧
        ∀ h ∈ found, t.graph.Wraps h r) s := by
  have hhas : ∀ h ∈ found, s.graph.Has h := by
    intro h hmem
    obtain ⟨rank, hrank, -⟩ := hfound.exists_rank hmem
    exact Graph.has_of_rank? hrank
  unfold package
  split
  . have hadds := Graph.adds_addPrimitive (M := M) hs .null
    apply (builds_build (s := s) loc hadds).mono _ (fun _ _ => id)
    rintro r t ⟨hr, -⟩
    refine ⟨hr.mono ?_, fun _ hmem => nomatch hmem⟩
    rintro g - value (⟨-, hnull⟩ | ⟨member, hmember, -⟩)
    . exact hnull
    . cases hmember
  . next hnonempty =>
    dsimp only
    split
    . next member =>
      rw [pure_bind]
      refine builds_withNull withNull hint
        ⟨.refl hs, hhas member (List.mem_singleton_self _), ?_⟩ ?_
      . rintro g - value ⟨-, h, hmem, hvalue⟩
        rwa [List.mem_singleton.1 hmem] at hvalue
      . intro h hmem
        rw [List.mem_singleton.1 hmem]
        exact .itself
    . next hmany =>
      have hlength : 2 ≤ found.length := two_le_length hnonempty hmany
      have hadds := Graph.adds_addUnion (M := M) hs hint hhas hlength hfound
      apply (builds_build loc hadds).next (fun _ _ h => h.1.toGrown)
      rintro core t ⟨hadded, -, hmake⟩
      have hwraps : ∀ h ∈ found, t.graph.Wraps h core := by
        intro h hmem
        have hunion := Graph.wraps_addUnion hs hint hhas hlength hfound hmem
        rwa [hmake] at hunion
      exact (builds_withNull withNull hint hadded hwraps).mono (fun _ _ => id) (fun _ _ => id)

theorem builds_combine (hunify : Covering M unify) (hs : List Handle) (hint : NameHint)
    (loc : Location) (hsound : s.graph.Sound) (hhas : ∀ h ∈ hs, s.graph.Has h) :
    Builds (combine unify (s.graph.leaves hs) hint loc) (fun r t =>
      Added M loc (anyOf M hs) s r t ∧
        ∀ h, Leaves.Sole (s.graph.leaves hs) h → t.graph.Wraps h r) s := by
  unfold combine
  split
  . exact alike_fail ⟨.refl hsound, rfl⟩
  . next hconflict =>
    split
    . next hany =>
      have hadds := Graph.adds_addPrimitive (M := M) hsound .any
      apply (builds_build (s := s) loc hadds).mono _ (fun _ _ => id)
      rintro r t ⟨hr, -⟩
      refine ⟨hr.mono fun _ _ _ _ => trivial, ?_⟩
      rintro h ⟨-, hnone⟩
      rw [hany] at hnone
      cases hnone
    . next hany =>
      have hmixed : Leaves.maps (s.graph.leaves hs) ≠ [] →
          Leaves.records (s.graph.leaves hs) = [] := by
        intro hmaps
        by_cases hrecords : Leaves.records (s.graph.leaves hs) = []
        . exact hrecords
        . exact absurd ⟨hrecords, hmaps⟩ hconflict
      apply (builds_members (M := M) hunify _ hint loc hsound
        (fun leaf hleaf => Graph.shape?_of_mem_leaves hleaf) hmixed).next (fun _ _ h => h.1.toGrown)
      rintro found t ⟨hfound, hsole⟩
      apply (builds_package (M := M) found _ hint loc hfound.sound hfound.ascends).mono _
        (fun _ _ => id)
      rintro r u ⟨hr, hwraps⟩
      refine ⟨⟨hfound.toGrown.trans hr.toGrown, hr.has, ?_⟩, fun h hh => hwraps h (hsole h hh)⟩
      apply hr.covers.mono
      rintro g hg value ⟨hforesees, h, hmem, hvalue⟩
      refine ⟨hforesees, ?_⟩
      have hevolves : t.graph.Evolves g := hr.evolves.trans hg
      -- The null that a nullable leaf lets in is put back around the members.
      rcases Graph.accepts_leaves hsound (hfound.evolves.trans hevolves) hhas hmem hvalue with
        ⟨hnull, leaf, hleaf, inner, hinner⟩ | ⟨leaf, hleaf, hplain, haccepts⟩
      . exact Or.inl ⟨Leaves.hasNull_of_nullable hleaf hinner, hnull⟩
      . by_cases hnull : leaf.2 = .primitive .null
        . have hshape := (Graph.shape?_of_mem_leaves hleaf).1
          rw [hnull] at hshape
          have hfits := haccepts.fits
            ((hfound.evolves.trans hevolves).shape? hshape rfl)
          exact Or.inl ⟨Leaves.hasNull_of_primitive hleaf hnull, hfits⟩
        . right
          apply hfound.covers g hevolves (hforesees.earlier hr.suffix)
          refine ⟨leaf, hleaf, hplain, ?_, hnull, haccepts⟩
          intro heq
          exact hany (Leaves.has_iff.2 ⟨leaf, hleaf, heq⟩)

theorem covering_unifyWithin (M : Moments) (depth : Nat) : Covering M (unifyWithin depth) := by
  have hsingle : ∀ h s loc, s.graph.Sound → (∀ k ∈ [h], s.graph.Has k) →
      Builds (pure h) (Added M loc (anyOf M [h]) s) s := by
    intro h s loc hs hhas
    apply alike_pure
    refine ⟨.refl hs, hhas h (List.mem_singleton_self _), ?_⟩
    rintro g - value ⟨-, k, hk, hvalue⟩
    rwa [List.mem_singleton.1 hk] at hvalue
  induction depth with
  | zero =>
    intro hs hint loc s hsound hhas
    unfold unifyWithin
    split
    . exact alike_fail ⟨.refl hsound, rfl⟩
    . exact hsingle _ _ _ hsound hhas
    . exact alike_fail ⟨.refl hsound, rfl⟩
    . contradiction
  | succ depth ih =>
    intro hs hint loc s hsound hhas
    cases hs with
    | nil => exact alike_fail ⟨.refl hsound, rfl⟩
    | cons h rest =>
      cases rest with
      | nil => exact hsingle _ _ _ hsound hhas
      | cons k rest =>
        simp only [unifyWithin]
        apply alike_state_bind
        exact (builds_combine ih _ _ _ hsound hhas).mono (fun _ _ h => h.1) (fun _ _ => id)

theorem covering_unify (M : Moments) : Covering M Unification.unify := by
  intro hs hint loc s hsound hhas
  unfold Unification.unify
  apply alike_state_bind
  exact covering_unifyWithin M _ hs hint loc s hsound hhas

theorem builds_unify {hs : List Handle} (hint : NameHint) (loc : Location) (hsound : s.graph.Sound)
    (hhas : ∀ h ∈ hs, s.graph.Has h) :
    Builds (Unification.unify hs hint loc) (fun r t => s.Grown t ∧ t.graph.Has r) s := by
  -- What strings stand for moments does not matter here.
  have hunify := covering_unify .all hs hint loc s hsound hhas
  exact hunify.mono (fun _ _ h => ⟨h.toGrown, h.has⟩) (fun _ _ => id)

theorem unifyWithin_single (depth : Nat) (h : Handle) (hint : NameHint) (loc : Location) :
    unifyWithin depth [h] hint loc = pure h := by
  cases depth with
  | zero => rfl
  | succ depth => rfl

theorem builds_unify_of_combine {Q : Handle → State → Prop} {h k : Handle} {rest : List Handle}
    {hint : NameHint} {loc : Location}
    (hcombine : ∀ depth, Builds
      (combine (unifyWithin depth) (s.graph.leaves (h :: k :: rest)) hint loc) Q s) :
    Builds (Unification.unify (h :: k :: rest) hint loc) Q s := by
  unfold Unification.unify
  apply alike_state_bind
  have hbound : s.graph.unificationBound ≠ 0 :=
    Nat.ne_zero_of_lt s.graph.size_lt_unificationBound
  obtain ⟨depth, hdepth⟩ := Nat.exists_eq_succ_of_ne_zero hbound
  rw [hdepth]
  simp only [unifyWithin]
  exact alike_state_bind (hcombine depth)

theorem wraps_unify {h k : Handle} {rest : List Handle} (hint : NameHint) (loc : Location)
    (hsound : s.graph.Sound) (hhas : ∀ type ∈ h :: k :: rest, s.graph.Has type) :
    Builds (Unification.unify (h :: k :: rest) hint loc) (fun r t => s.Grown t ∧
      ∀ object, Leaves.Sole (s.graph.leaves (h :: k :: rest)) object →
        t.graph.Wraps object r) s := by
  apply builds_unify_of_combine
  intro depth
  have hunify := covering_unifyWithin .all depth
  apply (builds_combine hunify _ hint loc hsound hhas).mono
  . exact fun _ _ h => ⟨h.1.toGrown, h.2⟩
  . exact fun _ _ => id

end

end Unification

end SchemaGraph
