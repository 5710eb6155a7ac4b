import SchemaGraph.Proofs.Unification.Cover
import SchemaGraph.Proofs.Unification.Kinds

/-!
This module contains the proof that a unification neither loses nor invents an alternative. Each kind
among the leaves gets exactly one member, in the order of the kinds, and the members are what the
result offers, together with null.
-/

namespace SchemaGraph

namespace Leaves

variable {leaves : List Leaf}

theorem has_eq_shows {kind : Primitive} (hkind : kind ≠ .null) :
    Leaves.has leaves kind = Leaves.shows leaves (.primitive kind) := by
  rw [Bool.eq_iff_iff, has_iff, shows_iff]
  apply exists_congr
  intro leaf
  apply and_congr_right
  intro _
  cases leaf.2 with
  | nullable inner => simp [Shape.kind?, hkind.symm]
  | _ => simp [Shape.kind?]

theorem hasString_eq_shows : Leaves.hasString leaves = Leaves.shows leaves .string := by
  rw [Bool.eq_iff_iff, hasString_iff, shows_iff]
  apply exists_congr
  intro leaf
  apply and_congr_right
  intro _
  cases leaf.2 with
  | _ => simp [Shape.kind?]

theorem distinct_eq_nil_iff {hs : List Handle} : distinct hs = [] ↔ hs = [] := by
  cases hs with
  | _ => simp [distinct]

theorem hasNull_eq_shows : Leaves.hasNull leaves = Leaves.shows leaves (.primitive .null) := by
  unfold Leaves.hasNull Leaves.shows
  congr
  funext leaf
  cases leaf.2 with
  | primitive kind => cases kind <;> rfl
  | _ => rfl

theorem shows_iff_filterMap {α : Type} {kind : Kind} {content : Leaf → Option α}
    (hcontent : ∀ leaf, content leaf = none ↔ leaf.2.kind? ≠ some kind) :
    Leaves.shows leaves kind = true ↔ leaves.filterMap content ≠ [] := by
  rw [ne_eq, List.filterMap_eq_nil_iff, shows_iff]
  simp [hcontent]

theorem shows_enum_iff : Leaves.shows leaves .enum = true ↔ Leaves.enums leaves ≠ [] := by
  apply shows_iff_filterMap
  rintro ⟨h, shape⟩
  cases shape with
  | _ => simp [Shape.kind?]

theorem shows_array_iff : Leaves.shows leaves .array = true ↔ Leaves.items leaves ≠ [] := by
  apply shows_iff_filterMap
  rintro ⟨h, shape⟩
  cases shape with
  | _ => simp [Shape.kind?]

theorem shows_map_iff : Leaves.shows leaves .map = true ↔ Leaves.maps leaves ≠ [] := by
  unfold Leaves.maps
  rw [ne_eq, distinct_eq_nil_iff]
  apply shows_iff_filterMap
  rintro ⟨h, shape⟩
  cases shape with
  | _ => simp [Shape.kind?]

theorem shows_record_iff : Leaves.shows leaves .record = true ↔ Leaves.records leaves ≠ [] := by
  unfold Leaves.records
  rw [ne_eq, distinct_eq_nil_iff]
  apply shows_iff_filterMap
  rintro ⟨h, shape⟩
  cases shape with
  | _ => simp [Shape.kind?]

end Leaves

namespace Unification

open Effect

structure Picked (leaves : List Leaf) (kinds : List Kind) (s : State) (found : List Handle)
    (t : State) : Prop extends s.Grown t where
  listed : found.map t.graph.kind? = (kinds.filter (Leaves.shows leaves)).map some
  cases {h cases} : h ∈ found → t.graph.shape? h = some (.enum cases) →
    ∀ text, text ∈ cases ↔ ∃ cases' ∈ Leaves.enums leaves, text ∈ cases'

section

variable {M : Moments} {leaves : List Leaf} {kind : Kind} {kinds kinds' : List Kind}
  {s t u : State} {found found' : List Handle} {unify : Unify}

theorem Picked.exists_mem_iff (h : Picked leaves kinds s found t) :
    (∃ k ∈ found, t.graph.kind? k = some kind) ↔
      kind ∈ kinds ∧ Leaves.shows leaves kind = true := by
  rw [← List.mem_map, h.listed, List.mem_map_of_injective (Option.some_injective _),
    List.mem_filter]

theorem Picked.exists_kind (h : Picked leaves kinds s found t) {k : Handle} (hk : k ∈ found) :
    ∃ kind ∈ kinds, t.graph.kind? k = some kind := by
  have hmem : t.graph.kind? k ∈ found.map t.graph.kind? := List.mem_map_of_mem hk
  rw [h.listed] at hmem
  obtain ⟨kind, hkind, heq⟩ := List.mem_map.1 hmem
  exact ⟨kind, (List.mem_filter.1 hkind).1, heq.symm⟩

theorem Picked.append (h : Picked leaves kinds s found t) (h' : Picked leaves kinds' t found' u) :
    Picked leaves (kinds ++ kinds') s (found ++ found') u := by
  -- What comes later leaves the nodes as they are that have been found before.
  have hshape : ∀ k ∈ found, u.graph.shape? k = t.graph.shape? k := by
    intro k hk
    obtain ⟨kind, -, hkind⟩ := h.exists_kind hk
    obtain ⟨shape, hshape, -⟩ := Option.bind_eq_some_iff.1 hkind
    exact h'.graph.grows.shape?_eq (Graph.has_of_shape? hshape)
  have hlisted : found.map u.graph.kind? = found.map t.graph.kind? := by
    apply List.map_congr_left
    intro k hk
    unfold Graph.kind?
    rw [hshape k hk]
  refine ⟨h.toGrown.trans h'.toGrown, ?_, ?_⟩
  . rw [List.map_append, List.filter_append, List.map_append, hlisted, h.listed, h'.listed]
  . intro k cases hk henum
    rcases List.mem_append.1 hk with hk | hk
    . rw [hshape k hk] at henum
      exact h.cases hk henum
    . exact h'.cases hk henum

theorem Picked.empty (hst : s.Grown t) : Picked leaves [] s [] t :=
  ⟨hst, rfl, nofun⟩

theorem Picked.later (h : Picked leaves kinds s found t) (htu : t.Grown u) :
    Picked leaves kinds s found u := by
  have hlater := h.append (.empty htu)
  rwa [List.append_nil, List.append_nil] at hlater

theorem Picked.nil (hst : s.Grown t) (hnone : ¬Leaves.shows leaves kind = true) :
    Picked leaves [kind] s [] t := by
  refine ⟨hst, ?_, nofun⟩
  simp [hnone]

theorem Picked.single {r : Handle} {shape : Shape} (hst : s.Grown t)
    (hshape : t.graph.shape? r = some shape) (hkind : shape.kind? = some kind)
    (hshows : Leaves.shows leaves kind = true)
    (hcases : ∀ cases, shape = .enum cases →
      ∀ text, text ∈ cases ↔ ∃ cases' ∈ Leaves.enums leaves, text ∈ cases') :
    Picked leaves [kind] s [r] t := by
  refine ⟨hst, ?_, ?_⟩
  . simp [hshows, Graph.kind?_of_shape? hshape, hkind]
  . intro h cases hmem henum
    rw [List.mem_singleton.1 hmem, hshape] at henum
    exact hcases cases (Option.some.inj henum)

theorem builds_gives {make : Graph → Handle × Graph} {shape : Shape}
    (h : s.graph.Gives (make s.graph) shape) (hclosed : shape.isOpen = false) :
    Builds (build make) (fun r t => s.Grown t ∧ t.graph.shape? r = some shape) s := by
  apply alike_build
  exact ⟨.build (h.built hclosed), h.shape⟩

theorem picks_primitives (leaves : List Leaf) (kinds : List Primitive) (hnull : .null ∉ kinds)
    (hs : s.graph.Sound) :
    Builds (primitives leaves kinds) (Picked leaves (kinds.map .primitive) s) s := by
  induction kinds generalizing s with
  | nil =>
    exact alike_pure (.empty (.refl hs))
  | cons kind rest ih =>
    obtain ⟨hkind, hrest⟩ := not_or.1 (mt List.mem_cons.2 hnull)
    have hshows : Leaves.has leaves kind = Leaves.shows leaves (.primitive kind) :=
      Leaves.has_eq_shows (Ne.symm hkind)
    unfold primitives at ih ⊢
    rw [List.filter_cons]
    split
    . next hhas =>
      rw [hshows] at hhas
      apply (builds_gives (Graph.gives_addPrimitive hs kind) rfl).next (fun _ _ h => h.1)
      rintro r t ⟨hgrown, hshape⟩
      apply (ih hrest hgrown.sound).next (fun _ _ h => h.toGrown)
      intro found u hfound
      apply alike_pure
      exact (Picked.single hgrown hshape rfl hhas nofun).append hfound
    . next hnone =>
      rw [hshows] at hnone
      apply (ih hrest hs).mono _ (fun _ _ => id)
      intro found t hfound
      exact (Picked.nil (.refl hs) hnone).append hfound

theorem picks_joinStrings (leaves : List Leaf) (hint : NameHint) (hs : s.graph.Sound) :
    Builds (joinStrings leaves hint) (Picked leaves [.string] s) s := by
  unfold joinStrings
  rw [Leaves.hasString_eq_shows]
  split
  . next hshows =>
    apply (builds_gives (Graph.gives_addString hs hint) rfl).next (fun _ _ h => h.1)
    rintro r t ⟨hgrown, hshape⟩
    apply alike_pure
    exact .single hgrown hshape rfl hshows nofun
  . next hnone => exact alike_pure (.nil (.refl hs) hnone)

theorem picks_joinEnums (leaves : List Leaf) (hint : NameHint) (hs : s.graph.Sound) :
    Builds (joinEnums (Leaves.enums leaves) hint) (Picked leaves [.enum] s) s := by
  unfold joinEnums
  split
  . next hnone =>
    apply alike_pure
    exact .nil (.refl hs) fun hshows => Leaves.shows_enum_iff.1 hshows hnone
  . next hsome =>
    obtain ⟨cases, hcases, hgives⟩ := Graph.gives_addEnum hs hint (Leaves.enums leaves).flatten
    apply (builds_gives hgives rfl).next (fun _ _ h => h.1)
    rintro r t ⟨hgrown, hshape⟩
    apply alike_pure
    apply Picked.single hgrown hshape rfl (Leaves.shows_enum_iff.2 hsome)
    rintro _ ⟨⟩ text
    rw [hcases, List.mem_flatten]

theorem picks_joinArrays (hunify : Covering M unify) (leaves : List Leaf) (hint : NameHint)
    (loc : Location) (hs : s.graph.Sound)
    (hitems : ∀ items ∈ Leaves.items leaves, s.graph.Has items) :
    Builds (joinArrays unify (Leaves.items leaves) hint loc) (Picked leaves [.array] s) s := by
  unfold joinArrays
  split
  . next hnone =>
    apply alike_pure
    exact .nil (.refl hs) fun hshows => Leaves.shows_array_iff.1 hshows hnone
  . next hsome =>
    apply (hunify _ _ _ _ hs hitems).next (fun _ _ h => h.toGrown)
    intro joined t hjoined
    apply (builds_gives (Graph.gives_addArray hjoined.sound hjoined.has) rfl).next
      (fun _ _ h => h.1)
    rintro r u ⟨hgrown, hshape⟩
    apply alike_pure
    exact .single (hjoined.toGrown.trans hgrown) hshape rfl (Leaves.shows_array_iff.2 hsome) nofun

theorem picks_joinMaps (hunify : Covering M unify) (leaves : List Leaf) (hint : NameHint)
    (loc : Location) (hs : s.graph.Sound)
    (hmaps : ∀ map ∈ Leaves.maps leaves, ∃ values, s.graph.shape? map = some (.map values)) :
    Builds (joinMaps unify (Leaves.maps leaves) hint loc) (Picked leaves [.map] s) s := by
  have hshows : Leaves.shows leaves .map = true ↔ Leaves.maps leaves ≠ [] :=
    Leaves.shows_map_iff
  generalize Leaves.maps leaves = maps at hmaps hshows ⊢
  unfold joinMaps
  split
  . apply alike_pure
    exact .nil (.refl hs) fun hmap => hshows.1 hmap rfl
  . next map =>
    obtain ⟨values, hshape⟩ := hmaps map (List.mem_singleton_self _)
    apply alike_pure
    exact .single (.refl hs) hshape rfl (hshows.2 (List.cons_ne_nil _ _)) nofun
  . next hsome _ =>
    apply alike_state_bind
    dsimp only
    apply alike_change_bind
    have hnoted : s.Grown
        { s with journal := .joined loc (s.graph.valuesRead maps) :: s.journal } :=
      .note hs (s.graph.reads_valuesRead maps)
    refine Builds.later ?_ hnoted
    apply (hunify _ _ _ _ hnoted.sound fun _ => hs.has_of_mem_valuesRead).next
      (fun _ _ h => h.toGrown)
    intro joined t hjoined
    apply (builds_gives (Graph.gives_addMap hjoined.sound hjoined.has) rfl).next (fun _ _ h => h.1)
    rintro r u ⟨hgrown, hshape⟩
    apply alike_pure
    exact .single (hnoted.trans (hjoined.toGrown.trans hgrown)) hshape rfl (hshows.2 hsome) nofun

theorem returns_joinRecords {records : List Handle} (hint : NameHint) (loc : Location)
    (hrecords : ∀ record ∈ records, ∃ fields, s.graph.shape? record = some (.record fields)) :
    Returns (joinRecords unify records hint loc) (fun found t => records = [] ∧ found = [] ∨
      records ≠ [] ∧ ∃ r fields, found = [r] ∧ t.graph.shape? r = some (.record fields)) s := by
  unfold joinRecords
  split
  . exact alike_pure (Or.inl ⟨rfl, rfl⟩)
  . next record =>
    obtain ⟨fields, hshape⟩ := hrecords record (List.mem_singleton_self _)
    exact alike_pure (Or.inr ⟨List.cons_ne_nil _ _, record, fields, rfl, hshape⟩)
  . next hsome _ =>
    apply alike_state_bind
    apply alike_check_bind
    . exact fun _ _ => trivial
    intro all _
    apply alike_change_bind
    apply Alike.next (returns_of_forall (Q := fun _ _ => True) fun _ _ => trivial)
    rintro fields t -
    have hrecord : Ends (build fun g => g.addRecord hint (.filled fields))
        (fun r t => t.graph.shape? r = some (.record (.filled fields))) (fun _ _ => True) t :=
      alike_build (Graph.shape?_push_self _ _)
    apply hrecord.next
    intro r u hshape
    exact alike_pure (Or.inr ⟨hsome, r, _, rfl, hshape⟩)

theorem picks_joinRecords (hunify : Covering M unify) (leaves : List Leaf) (hint : NameHint)
    (loc : Location) (hs : s.graph.Sound)
    (hrecords : ∀ record ∈ Leaves.records leaves,
      ∃ fields, s.graph.shape? record = some (.record fields)) :
    Builds (joinRecords unify (Leaves.records leaves) hint loc) (Picked leaves [.record] s) s := by
  apply ((builds_joinRecords hunify _ hint loc hs hrecords).and
    (returns_joinRecords hint loc hrecords)).mono
  . rintro found t ⟨⟨hadded, -⟩, ⟨hnone, rfl⟩ | ⟨hsome, r, fields, rfl, hshape⟩⟩
    . exact .nil hadded.toGrown fun hshows => Leaves.shows_record_iff.1 hshows hnone
    . exact .single hadded.toGrown hshape rfl (Leaves.shows_record_iff.2 hsome) nofun
  . exact fun _ _ h => h.1

def memberKinds : List Kind :=
  [.record, .map, .primitive .bool, .primitive .integer, .primitive .double, .string,
    .primitive .date, .primitive .time, .primitive .dateTime, .enum, .array]

theorem mem_memberKinds_iff : kind ∈ memberKinds ↔ kind ≠ .primitive .any ∧
    kind ≠ .primitive .null := by
  cases kind with
  | primitive primitive => cases primitive <;> decide
  | _ => decide

theorem exists_rank_of_mem_memberKinds (hkind : kind ∈ memberKinds) :
    ∃ rank, kind.rank? = some rank := by
  obtain ⟨hany, hnull⟩ := mem_memberKinds_iff.1 hkind
  cases kind with
  | primitive primitive =>
    cases primitive with
    | any => exact absurd rfl hany
    | null => exact absurd rfl hnull
    | _ => exact ⟨_, rfl⟩
  | _ => exact ⟨_, rfl⟩

theorem Picked.exists_rank (h : Picked leaves memberKinds s found t) {k : Handle}
    (hk : k ∈ found) : ∃ rank, t.graph.rank? k = some rank := by
  obtain ⟨kind, hmem, hkind⟩ := h.exists_kind hk
  obtain ⟨rank, hrank⟩ := exists_rank_of_mem_memberKinds hmem
  refine ⟨rank, ?_⟩
  rw [Graph.rank?_eq_bind, hkind, Option.bind_some, hrank]

theorem picks_otherMembers (hunify : Covering M unify) (leaves : List Leaf) (hint : NameHint)
    (loc : Location) (hitems : ∀ items ∈ Leaves.items leaves, s.graph.Has items)
    {object : List Handle} (hobject : Picked leaves [.record, .map] s object t) :
    Builds (otherMembers unify leaves hint loc object) (Picked leaves memberKinds s) t := by
  unfold otherMembers
  apply (picks_primitives leaves _ (by decide) hobject.sound).next (fun _ _ h => h.toGrown)
  intro scalars t hscalars
  have hall := hobject.append hscalars
  apply (picks_joinStrings leaves hint hall.sound).next (fun _ _ h => h.toGrown)
  intro strings t hstrings
  replace hall := hall.append hstrings
  apply (picks_primitives leaves _ (by decide) hall.sound).next (fun _ _ h => h.toGrown)
  intro moments t hmoments
  replace hall := hall.append hmoments
  apply (picks_joinEnums leaves hint hall.sound).next (fun _ _ h => h.toGrown)
  intro enums t henums
  replace hall := hall.append henums
  apply (picks_joinArrays hunify leaves hint loc hall.sound
    fun items hmem => hall.evolves.has items (hitems items hmem)).next (fun _ _ h => h.toGrown)
  intro arrays t harrays
  exact alike_pure (hall.append harrays)

theorem picks_members (hunify : Covering M unify) (leaves : List Leaf) (hint : NameHint)
    (loc : Location) (hs : s.graph.Sound)
    (hleaves : ∀ leaf ∈ leaves, s.graph.shape? leaf.1 = some leaf.2)
    (hmixed : Leaves.maps leaves ≠ [] → Leaves.records leaves = []) :
    Builds (members unify leaves hint loc) (Picked leaves memberKinds s) s := by
  have hitems : ∀ items ∈ Leaves.items leaves, s.graph.Has items := by
    intro items hmem
    obtain ⟨h, hleaf⟩ := Leaves.mem_items_iff.1 hmem
    exact hs.inside (hleaves _ hleaf) items (List.mem_singleton_self _)
  rw [members_eq]
  split
  . next hmaps =>
    have hrecords : ∀ record ∈ Leaves.records leaves,
        ∃ fields, s.graph.shape? record = some (.record fields) := by
      intro record hmem
      obtain ⟨fields, hleaf⟩ := Leaves.mem_records_iff.1 hmem
      exact ⟨fields, hleaves _ hleaf⟩
    apply (picks_joinRecords hunify leaves hint loc hs hrecords).next (fun _ _ h => h.toGrown)
    intro object t hobject
    have hnone : Picked leaves [.map] t [] t :=
      .nil (.refl hobject.sound) fun hshows => Leaves.shows_map_iff.1 hshows hmaps
    have hboth := hobject.append hnone
    rw [List.append_nil] at hboth
    exact picks_otherMembers hunify leaves hint loc hitems hboth
  . next hmaps =>
    have hshapes : ∀ map ∈ Leaves.maps leaves,
        ∃ values, s.graph.shape? map = some (.map values) := by
      intro map hmem
      obtain ⟨values, hleaf⟩ := Leaves.mem_maps_iff.1 hmem
      exact ⟨values, hleaves _ hleaf⟩
    apply (picks_joinMaps hunify leaves hint loc hs hshapes).next (fun _ _ h => h.toGrown)
    intro object t hobject
    have hnone : Picked leaves [.record] s [] s :=
      .nil (.refl hs) fun hshows => Leaves.shows_record_iff.1 hshows (hmixed hmaps)
    exact picks_otherMembers hunify leaves hint loc hitems (hnone.append hobject)

theorem picks_ascending (hunify : Covering M unify) (leaves : List Leaf) (hint : NameHint)
    (loc : Location) (hs : s.graph.Sound)
    (hleaves : ∀ leaf ∈ leaves, s.graph.shape? leaf.1 = some leaf.2 ∧
      ∀ members, leaf.2 ≠ .union members)
    (hconflict : ¬(Leaves.records leaves ≠ [] ∧ Leaves.maps leaves ≠ [])) :
    Builds (members unify leaves hint loc) (fun found t =>
      Picked leaves memberKinds s found t ∧ Ascends t.graph.rank? 0 Shape.ranks found) s := by
  -- Only one of records and maps makes a member, so no rank occurs twice.
  have hmixed : Leaves.maps leaves ≠ [] → Leaves.records leaves = [] := by
    intro hmaps
    by_contra hrecords
    exact hconflict ⟨hrecords, hmaps⟩
  have hpicks := picks_members hunify _ hint loc hs (fun leaf hleaf => (hleaves leaf hleaf).1)
    hmixed
  exact (hpicks.and (builds_members hunify _ hint loc hs hleaves hmixed)).mono
    (fun _ _ h => ⟨h.1, h.2.1.ascends⟩) (fun _ _ h => h.1)

def IsCore (g : Graph) (found : List Handle) (core : Handle) : Prop :=
  (found = [core] ∧ ∃ rank, g.rank? core = some rank) ∨
    ∃ members, g.shape? core = some (.union members) ∧ ∀ k, k ∈ members ↔ k ∈ found

/--
The type of some members, with null if `withNull` says so. Without members it is null.
-/
def Packs (g : Graph) (found : List Handle) (withNull : Bool) (r : Handle) : Prop :=
  found = [] ∧ g.shape? r = some (.primitive .null) ∨
    ∃ core, IsCore g found core ∧
      (withNull = false ∧ r = core ∨ withNull = true ∧ g.shape? r = some (.nullable core))

theorem IsCore.evolve {g g' : Graph} {core : Handle} (h : IsCore g found core)
    (hg : g.Evolves g') : IsCore g' found core := by
  rcases h with ⟨hfound, rank, hrank⟩ | ⟨members, hshape, hmembers⟩
  . exact Or.inl ⟨hfound, rank, hg.rank? core rank hrank⟩
  . exact Or.inr ⟨members, hg.shape? hshape rfl, hmembers⟩

theorem IsCore.admitsNull {g : Graph} {core : Handle} {shape : Shape} (h : IsCore g found core)
    (hshape : g.shape? core = some shape) : Graph.admitsNull shape = false := by
  rcases h with ⟨-, rank, hrank⟩ | ⟨members, hunion, -⟩
  . rw [Graph.rank?_of_shape? hshape] at hrank
    rw [Bool.eq_false_iff]
    intro hadmits
    rw [Graph.rank?_of_admitsNull hadmits] at hrank
    cases hrank
  . cases hunion.symm.trans hshape
    rfl

theorem IsCore.has {g : Graph} {core : Handle} (h : IsCore g found core) : g.Has core := by
  rcases h with ⟨-, rank, hrank⟩ | ⟨members, hshape, -⟩
  . exact Graph.has_of_rank? hrank
  . exact Graph.has_of_shape? hshape

theorem IsCore.ne_nil {g : Graph} (hg : g.Sound) {core : Handle} (h : IsCore g found core) :
    found ≠ [] := by
  rcases h with ⟨rfl, -⟩ | ⟨members, hshape, hmembers⟩
  . exact List.cons_ne_nil _ _
  . rintro rfl
    have hmany := (hg.allows hshape).1
    rw [List.eq_nil_iff_forall_not_mem.2 fun k hk => nomatch (hmembers k).1 hk] at hmany
    cases hmany

theorem Packs.has {g : Graph} {withNull : Bool} {r : Handle} (h : Packs g found withNull r) :
    g.Has r := by
  rcases h with ⟨-, hshape⟩ | ⟨core, hcore, ⟨-, rfl⟩ | ⟨-, hshape⟩⟩
  . exact Graph.has_of_shape? hshape
  . exact hcore.has
  . exact Graph.has_of_shape? hshape

theorem IsCore.offers_iff {g : Graph} (hg : g.Sound) {core k : Handle} (h : IsCore g found core)
    (hkind : g.kind? k = some kind) : g.Offers core k ↔ k ∈ found := by
  rcases h with ⟨rfl, rank, hrank⟩ | ⟨members, hshape, hmembers⟩
  . rw [Graph.offers_iff_of_rank? hrank, List.mem_singleton]
  . rw [hg.offers_union hshape, hmembers]
    constructor
    . rintro (rfl | hmem)
      . rw [Graph.kind?_of_shape? hshape] at hkind
        cases hkind
      . exact hmem
    . exact Or.inr

theorem Packs.offers_iff {g : Graph} (hg : g.Sound) {withNull : Bool} {r k : Handle}
    (h : Packs g found withNull r) (hkind : g.kind? k = some kind) (hnull : kind ≠ .primitive .null) :
    g.Offers r k ↔ k ∈ found := by
  rcases h with ⟨rfl, hshape⟩ | ⟨core, hcore, ⟨-, rfl⟩ | ⟨-, hshape⟩⟩
  . rw [Graph.offers_iff hshape]
    constructor
    . rintro (rfl | hfalse)
      . rw [Graph.kind?_of_shape? hshape] at hkind
        cases hkind
        exact absurd rfl hnull
      . cases hfalse
    . exact fun hmem => nomatch hmem
  . exact hcore.offers_iff hg hkind
  . rw [Graph.offers_iff hshape]
    dsimp only
    rw [hcore.offers_iff hg hkind]
    constructor
    . rintro (rfl | hmem)
      . rw [Graph.kind?_of_shape? hshape] at hkind
        cases hkind
        exact absurd rfl hnull
      . exact hmem
    . exact Or.inr

theorem Packs.shows_null_iff {g : Graph} (hg : g.Sound) {withNull : Bool} {r : Handle}
    (h : Packs g found withNull r) (hfound : ∀ k ∈ found, ∃ rank, g.rank? k = some rank) :
    g.Shows r (.primitive .null) ↔ withNull = true ∨ found = [] := by
  rcases h with ⟨hnone, hshape⟩ | ⟨core, hcore, ⟨hwith, rfl⟩ | ⟨hwith, hshape⟩⟩
  . exact iff_of_true ⟨r, .itself, Graph.kind?_of_shape? hshape⟩ (Or.inr hnone)
  . apply iff_of_false
    . rintro ⟨k, hoffers, hkind⟩
      obtain ⟨rank, hrank⟩ := hfound k ((hcore.offers_iff hg hkind).1 hoffers)
      rw [Graph.rank?_of_kind?_null hkind] at hrank
      cases hrank
    . rw [hwith]
      exact not_or.2 ⟨Bool.false_ne_true, hcore.ne_nil hg⟩
  . exact iff_of_true ⟨r, .itself, Graph.kind?_of_shape? hshape⟩ (Or.inl hwith)

theorem Packs.shape?_of_nil {g : Graph} (hg : g.Sound) {withNull : Bool} {r : Handle}
    (h : Packs g [] withNull r) : g.shape? r = some (.primitive .null) := by
  rcases h with ⟨-, hshape⟩ | ⟨core, hcore, -⟩
  . exact hshape
  . exact absurd rfl (hcore.ne_nil hg)

theorem packs_withNull {core : Handle} (withNull : Bool) (hint : NameHint) (hst : s.Grown t)
    (hcore : IsCore t.graph found core) :
    Builds (if withNull = true then build fun g => g.addNullable core hint else pure core)
      (fun r u => s.Grown u ∧ Packs u.graph found withNull r) t := by
  split
  . next hwith =>
    obtain ⟨shape, hgives, hshape⟩ := Graph.gives_addNullable hst.sound hcore.has hint
    have hlater := hcore.evolve hgives.evolves
    apply alike_build
    refine ⟨hst.trans (.build (Graph.built_addNullable hst.sound hcore.has hint).1),
      Or.inr ⟨core, hlater, ?_⟩⟩
    rcases hshape with rfl | ⟨hsame, hadmits⟩
    . exact Or.inr ⟨hwith, hgives.shape⟩
    . have hplain := hlater.admitsNull (hsame ▸ hgives.shape)
      rw [hadmits] at hplain
      cases hplain
  . next hwithout =>
    apply alike_pure
    exact ⟨hst, Or.inr ⟨core, hcore, Or.inl ⟨Bool.eq_false_iff.2 hwithout, rfl⟩⟩⟩

theorem packs_package (found : List Handle) (withNull : Bool) (hint : NameHint)
    (hs : s.graph.Sound) (hfound : Ascends s.graph.rank? 0 Shape.ranks found) :
    Builds (package found withNull hint)
      (fun r t => s.Grown t ∧ Packs t.graph found withNull r) s := by
  unfold package
  split
  . apply (builds_gives (Graph.gives_addPrimitive hs .null) rfl).mono _ (fun _ _ => id)
    rintro r t ⟨hgrown, hshape⟩
    exact ⟨hgrown, Or.inl ⟨rfl, hshape⟩⟩
  . next hnonempty =>
    dsimp only
    split
    . next member =>
      obtain ⟨rank, hrank, -⟩ := hfound.exists_rank (List.mem_singleton_self member)
      rw [pure_bind]
      exact packs_withNull withNull hint (.refl hs) (Or.inl ⟨rfl, rank, hrank⟩)
    . next hmany =>
      have hlength : 2 ≤ found.length := two_le_length hnonempty hmany
      have hhas : ∀ h ∈ found, s.graph.Has h := by
        intro h hmem
        obtain ⟨rank, hrank, -⟩ := hfound.exists_rank hmem
        exact Graph.has_of_rank? hrank
      obtain ⟨members, hmembers, hgives⟩ := Graph.gives_addUnion hs hint hhas hlength hfound
      apply (builds_gives hgives rfl).next (fun _ _ h => h.1)
      rintro core t ⟨hgrown, hshape⟩
      exact packs_withNull withNull hint hgrown (Or.inr ⟨members, hshape, hmembers⟩)

def Combined (leaves : List Leaf) (s : State) (r : Handle) (t : State) : Prop :=
  if Leaves.shows leaves (.primitive .any) then t.graph.shape? r = some (.primitive .any)
  else ∃ found, Picked leaves memberKinds s found t ∧
    Packs t.graph found (Leaves.shows leaves (.primitive .null)) r

theorem combines_combine (hunify : Covering M unify) (types : List Handle) (hint : NameHint)
    (loc : Location) (hs : s.graph.Sound) :
    Builds (combine unify (s.graph.leaves types) hint loc)
      (fun r t => s.Grown t ∧ Combined (s.graph.leaves types) s r t) s := by
  have hleaves : ∀ leaf ∈ s.graph.leaves types, s.graph.shape? leaf.1 = some leaf.2 ∧
      ∀ members, leaf.2 ≠ .union members :=
    fun leaf hleaf => Graph.shape?_of_mem_leaves hleaf
  unfold combine Combined
  rw [Leaves.has_eq_shows (by decide), Leaves.hasNull_eq_shows]
  split
  . exact alike_fail ⟨.refl hs, rfl⟩
  . next hconflict =>
    split
    . exact builds_gives (Graph.gives_addPrimitive hs .any) rfl
    . apply (picks_ascending hunify _ hint loc hs hleaves hconflict).next (fun _ _ h => h.1.toGrown)
      rintro found t ⟨hpicked, hascends⟩
      apply (packs_package found _ hint hpicked.sound hascends).mono _ (fun _ _ => id)
      rintro r u ⟨hgrown, hpacks⟩
      exact ⟨hpicked.toGrown.trans hgrown, found, hpicked.later hgrown, hpacks⟩

theorem combines_unify {h k : Handle} {rest : List Handle} (hint : NameHint) (loc : Location)
    (hs : s.graph.Sound) :
    Builds (Unification.unify (h :: k :: rest) hint loc)
      (fun r t => s.Grown t ∧ Combined (s.graph.leaves (h :: k :: rest)) s r t) s := by
  apply builds_unify_of_combine
  intro depth
  exact combines_combine (covering_unifyWithin .all depth) _ hint loc hs

end

end Unification

end SchemaGraph
