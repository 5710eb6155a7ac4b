import SchemaGraph.Proofs.Unification.UniqueJoints

/-!
This module contains the proof that a joint type that is there is found again. A unification of types
that have their joint type neither builds nor merges anything, whatever the grouping was in which the
types were joined before.
-/

namespace SchemaGraph

namespace Unification

open Effect

/--
Whatever has happened to the names in a graph, unifying the types ends with `r` and leaves the rest
of the graph as it is.
-/
def Settles (unify : Unify) (E : Fault → State → Prop) (g : Graph) (types : List Handle)
    (r : Handle) : Prop :=
  ∀ hint loc t, g.Like False t.graph →
    Ends (unify types hint loc) (fun r' u => r' = r ∧ g.Like False u.graph) E t

section

variable {g : Graph} {inner : Set Handle → Handle → Prop} {types : List Handle} {r k : Handle}
  {kind : Kind} {unify : Unify} {E : Fault → State → Prop} {t : State}

theorem eq_singleton_of_nodup {hs : List Handle} (hnodup : hs.Nodup) (hsome : hs ≠ [])
    (hsame : ∀ h ∈ hs, h = k) : hs = [k] := by
  match hs with
  | [] => exact absurd rfl hsome
  | [h] => rw [hsame h (List.mem_singleton_self _)]
  | h :: h' :: rest =>
    have heq : h = h' := (hsame h (List.mem_cons_self ..)).trans
      (hsame h' (List.mem_cons_of_mem _ (List.mem_cons_self ..))).symm
    exact absurd (heq ▸ List.mem_cons_self ..) (List.nodup_cons.1 hnodup).1

theorem finds_member (hinterned : g.Interned) (hlike : g.Like False t.graph)
    (hoffers : g.Offers r k) {key key' : Key} (hmem : (key', k) ∈ g.shared)
    (hsame : key'.same key = true) (shape : Shape) (hint : Option NameHint) :
    Ends (build fun g => g.share key shape hint)
      (fun k' u => g.Offers r k' ∧ g.Like False u.graph) E t := by
  apply (finds_share hinterned hlike hmem hsame shape hint).mono _ (fun _ _ => id)
  rintro k' u ⟨rfl, hlike⟩
  exact ⟨hoffers, hlike⟩

section

variable (hg : g.Sound) (hinterned : g.Interned) (hhas : ∀ h ∈ types, g.Has h)
  (h : g.Gathered inner {h | h ∈ types} r)

include hg hhas h in
theorem exists_offers_of_shows (hshows : Leaves.shows (g.leaves types) kind = true) :
    ∃ k, g.Offers r k ∧ g.kind? k = some kind :=
  (h.kinds kind).2 (Graph.showsAmong_iff.1 ((hg.shows_leaves_iff hhas).1 hshows))

include hg hinterned hhas h

theorem finds_primitives (kinds : List Primitive) (hnull : .null ∉ kinds)
    (hlike : g.Like False t.graph) :
    Ends (primitives (g.leaves types) kinds)
      (fun found u => (∀ k ∈ found, g.Offers r k) ∧ g.Like False u.graph) E t := by
  apply alike_collect (J := fun u => g.Like False u.graph) _ _ _ _ hlike
  intro kind hkind u hlike
  obtain ⟨hmem, hhas'⟩ := List.mem_filter.1 hkind
  have hne : kind ≠ .null := fun heq => hnull (heq ▸ hmem)
  rw [Leaves.has_eq_shows hne] at hhas'
  obtain ⟨k, hoffers, hk⟩ := exists_offers_of_shows hg hhas h hhas'
  have hlisted : (Key.primitive kind, k) ∈ g.shared :=
    hinterned.listed ((Graph.shape?_of_kind? hk).resolve_left hne) rfl
  exact finds_member hinterned hlike hoffers hlisted (Key.same_refl _) _ _

theorem finds_joinStrings (hint : NameHint) (hlike : g.Like False t.graph) :
    Ends (joinStrings (g.leaves types) hint)
      (fun found u => (∀ k ∈ found, g.Offers r k) ∧ g.Like False u.graph) E t := by
  unfold joinStrings
  rw [Leaves.hasString_eq_shows]
  split
  . next hshows =>
    obtain ⟨k, hoffers, hk⟩ := exists_offers_of_shows hg hhas h hshows
    have hlisted : (Key.string, k) ∈ g.shared :=
      hinterned.listed (Graph.shape?_of_kind? hk) rfl
    apply alike_collect_single (J := fun u => g.Like False u.graph)
    exact finds_member hinterned hlike hoffers hlisted (Key.same_refl _) _ _
  . exact alike_pure ⟨nofun, hlike⟩

theorem finds_joinEnums (hint : NameHint) (hlike : g.Like False t.graph) :
    Ends (joinEnums (Leaves.enums (g.leaves types)) hint)
      (fun found u => (∀ k ∈ found, g.Offers r k) ∧ g.Like False u.graph) E t := by
  unfold joinEnums
  split
  . exact alike_pure ⟨nofun, hlike⟩
  . next hsome =>
    obtain ⟨k, hoffers, hk⟩ :=
      exists_offers_of_shows hg hhas h (Leaves.shows_enum_iff.2 hsome)
    obtain ⟨cases, hshape⟩ := Graph.shape?_of_kind? hk
    have hsame : Key.same (.enum cases)
        (.enum (distinct (Leaves.enums (g.leaves types)).flatten)) = true := by
      apply sameElements_iff.2
      intro text
      rw [h.cases hoffers hshape, mem_distinct, List.mem_flatten, hg.mem_case_iff hhas,
        Graph.exists_case_iff]
    have hlisted : (Key.enum cases, k) ∈ g.shared := hinterned.listed hshape rfl
    apply alike_collect_single (J := fun u => g.Like False u.graph)
    exact finds_member hinterned hlike hoffers hlisted hsame _ _

omit hinterned in
theorem packs_of_found {found : List Handle} {u : State} (hr : g.Has r)
    (hnone : ∀ k, g.Among {h | h ∈ types} k → g.kind? k ≠ some (.primitive .any))
    (hfound : ∀ k ∈ found, g.Offers r k) (hlike : g.Like False u.graph)
    (hpicked : Picked (g.leaves types) memberKinds t found u)
    (hascends : Ascends g.rank? 0 Shape.ranks found) :
    Packs g found (Leaves.shows (g.leaves types) (.primitive .null)) r := by
  have hshows {kind : Kind} : g.Shows r kind ↔ Leaves.shows (g.leaves types) kind = true := by
    rw [h.kinds, hg.shows_leaves_iff hhas]
    exact Graph.showsAmong_iff.symm
  have hany {k : Handle} {kind : Kind} (hoffers : g.Offers r k) (hkind : g.kind? k = some kind) :
      kind ≠ .primitive .any := by
    rintro rfl
    obtain ⟨k, hk, hkind⟩ := (h.kinds _).1 ⟨k, hoffers, hkind⟩
    exact hnone k hk hkind
  refine packs_of_mem_iff hg hr ?_ hascends ?_ ?_
  . exact fun hshape => hany .itself (Graph.kind?_of_shape? hshape) rfl
  . intro k
    constructor
    . intro hk
      obtain ⟨rank, hrank, -⟩ := hascends.exists_rank hk
      exact ⟨hfound k hk, rank, hrank⟩
    . rintro ⟨hoffers, rank, hrank⟩
      obtain ⟨kind, hkind, hnull⟩ := Graph.exists_kind_of_rank? hrank
      have hmember : kind ∈ memberKinds := mem_memberKinds_iff.2 ⟨hany hoffers hkind, hnull⟩
      obtain ⟨k', hk', hkind'⟩ :=
        hpicked.exists_mem_iff.2 ⟨hmember, hshows.1 ⟨k, hoffers, hkind⟩⟩
      rw [← hlike.kind?_eq] at hkind'
      rwa [hg.offers_unique hoffers (hfound k' hk') hkind hkind']
  . exact fun _ => hshows.symm

omit hinterned in
theorem finds_joinRecords (hint : NameHint) (loc : Location) (hlike : g.Like False t.graph) :
    Ends (joinRecords unify (Leaves.records (g.leaves types)) hint loc)
      (fun found u => (∀ k ∈ found, g.Offers r k) ∧ g.Like False u.graph) E t := by
  have hrecords : ∀ k, k ∈ Leaves.records (g.leaves types) ↔
      g.Among {h | h ∈ types} k ∧ g.kind? k = some .record := fun k => hg.mem_records_leaves hhas
  have hnodup : (Leaves.records (g.leaves types)).Nodup := nodup_distinct _
  have hshows : Leaves.shows (g.leaves types) .record = true →
      ∃ k, g.Offers r k ∧ g.kind? k = some .record := exists_offers_of_shows hg hhas h
  rw [Leaves.shows_record_iff] at hshows
  generalize Leaves.records (g.leaves types) = records at hrecords hnodup hshows ⊢
  by_cases hnone : records = []
  . rw [hnone]
    exact alike_pure ⟨nofun, hlike⟩
  . obtain ⟨k, hoffers, hk⟩ := hshows hnone
    have hlone : ∀ record ∈ records, record = k := by
      intro record hmem
      obtain ⟨hrecord, hkind⟩ := (hrecords record).1 hmem
      exact (h.fits hoffers).record hk hrecord hkind
    rw [eq_singleton_of_nodup hnodup hnone hlone]
    exact alike_pure ⟨List.forall_mem_singleton.2 hoffers, hlike⟩

section

variable (hinner : ∀ inside k, inside ≠ [] → (∀ h ∈ inside, g.Has h) → g.Has k →
  inner {h | h ∈ inside} k → Settles unify E g inside k)

include hinner

theorem finds_joinArrays (hint : NameHint) (loc : Location) (hlike : g.Like False t.graph) :
    Ends (joinArrays unify (Leaves.items (g.leaves types)) hint loc)
      (fun found u => (∀ k ∈ found, g.Offers r k) ∧ g.Like False u.graph) E t := by
  unfold joinArrays
  split
  . exact alike_pure ⟨nofun, hlike⟩
  . next hsome =>
    obtain ⟨k, hoffers, hk⟩ :=
      exists_offers_of_shows hg hhas h (Leaves.shows_array_iff.2 hsome)
    obtain ⟨items, hitems⟩ := Graph.exists_itemsOf? hk
    have hjoint := (h.fits hoffers).items hitems
    rw [← (Graph.Grows.refl g).items_leaves hg hhas] at hjoint
    apply Alike.next (hinner _ _ hsome (fun _ => hg.has_of_mem_items) (hg.has_of_itemsOf? hitems)
      hjoint _ _ _ hlike)
    rintro joined u ⟨rfl, hlike⟩
    have hlisted : (Key.array joined, k) ∈ g.shared :=
      hinterned.listed (Graph.itemsOf?_eq_some.1 hitems) rfl
    apply alike_collect_single (J := fun u => g.Like False u.graph)
    exact finds_member hinterned hlike hoffers hlisted (Key.same_refl _) _ _

theorem finds_joinMaps (hint : NameHint) (loc : Location) (hlike : g.Like False t.graph) :
    Ends (joinMaps unify (Leaves.maps (g.leaves types)) hint loc)
      (fun found u => (∀ k ∈ found, g.Offers r k) ∧ g.Like False u.graph) E t := by
  have hmaps : ∀ k, k ∈ Leaves.maps (g.leaves types) ↔
      g.Among {h | h ∈ types} k ∧ g.kind? k = some .map := fun k => hg.mem_maps_leaves hhas
  have hnodup : (Leaves.maps (g.leaves types)).Nodup := nodup_distinct _
  have hcontents := (Graph.Grows.refl g).values_leaves hg hhas
  have hshows : Leaves.shows (g.leaves types) .map = true →
      ∃ k, g.Offers r k ∧ g.kind? k = some .map := exists_offers_of_shows hg hhas h
  rw [Leaves.shows_map_iff] at hshows
  generalize Leaves.maps (g.leaves types) = maps at hmaps hnodup hcontents hshows ⊢
  by_cases hnone : maps = []
  . rw [hnone]
    exact alike_pure ⟨nofun, hlike⟩
  . obtain ⟨k, hoffers, hk⟩ := hshows hnone
    rcases (h.fits hoffers).map hk with hlone | ⟨hmany, values, hmem, hvalues⟩
    . have hsame : ∀ map ∈ maps, map = k := fun map hmem => hlone map ((hmaps map).1 hmem).1
        ((hmaps map).1 hmem).2
      rw [eq_singleton_of_nodup hnodup hnone hsame]
      exact alike_pure ⟨List.forall_mem_singleton.2 hoffers, hlike⟩
    . obtain ⟨l, l', hl, hl', hlkind, hlkind', hne⟩ := hmany
      have hlmem := (hmaps l).2 ⟨hl, hlkind⟩
      have hlmem' := (hmaps l').2 ⟨hl', hlkind'⟩
      have hread : t.graph.valuesRead maps = g.valuesRead maps := (hlike.shapes.valuesRead maps).symm
      unfold joinMaps
      split
      . exact absurd rfl hnone
      . next map =>
        exact absurd ((List.mem_singleton.1 hlmem).trans (List.mem_singleton.1 hlmem').symm) hne
      . apply alike_state_bind
        dsimp only
        apply alike_change_bind
        have hsome : (g.valuesRead maps).map Prod.snd ≠ [] :=
          Graph.valuesRead_ne_nil hlmem hlkind
        rw [← hcontents] at hvalues
        rw [hread]
        have hnoted : g.Like False { t with
            journal := .joined loc (g.valuesRead maps) :: t.journal }.graph := hlike
        have hhasvalues : g.Has values := hg.has_of_valuesOf? (hg.valuesOf?_of_shared hmem)
        apply Alike.next (hinner _ _ hsome (fun _ => hg.has_of_mem_valuesRead) hhasvalues hvalues
          _ _ _ hnoted)
        rintro joined u ⟨rfl, hlike⟩
        apply alike_collect_single (J := fun u => g.Like False u.graph)
        exact finds_member hinterned hlike hoffers hmem (Key.same_refl _) _ _

theorem finds_otherMembers (hint : NameHint) (loc : Location) {object : List Handle}
    (hobject : ∀ k ∈ object, g.Offers r k) (hlike : g.Like False t.graph) :
    Ends (otherMembers unify (g.leaves types) hint loc object)
      (fun found u => (∀ k ∈ found, g.Offers r k) ∧ g.Like False u.graph) E t := by
  unfold otherMembers
  apply Alike.next (finds_primitives hg hinterned hhas h _ (by decide) hlike)
  rintro scalars u ⟨hscalars, hlike⟩
  apply Alike.next (finds_joinStrings hg hinterned hhas h hint hlike)
  rintro strings u ⟨hstrings, hlike⟩
  apply Alike.next (finds_primitives hg hinterned hhas h _ (by decide) hlike)
  rintro moments u ⟨hmoments, hlike⟩
  apply Alike.next (finds_joinEnums hg hinterned hhas h hint hlike)
  rintro enums u ⟨henums, hlike⟩
  apply Alike.next (finds_joinArrays hg hinterned hhas h hinner hint loc hlike)
  rintro arrays u ⟨harrays, hlike⟩
  apply alike_pure
  simp only [List.forall_mem_append]
  exact ⟨⟨⟨⟨⟨⟨hobject, hscalars⟩, hstrings⟩, hmoments⟩, henums⟩, harrays⟩, hlike⟩

theorem finds_members (hint : NameHint) (loc : Location) (hlike : g.Like False t.graph) :
    Ends (members unify (g.leaves types) hint loc)
      (fun found u => (∀ k ∈ found, g.Offers r k) ∧ g.Like False u.graph) E t := by
  rw [members_eq]
  split
  . apply Alike.next (finds_joinRecords hg hhas h hint loc hlike)
    rintro object u ⟨hobject, hlike⟩
    exact finds_otherMembers hg hinterned hhas h hinner hint loc hobject hlike
  . apply Alike.next (finds_joinMaps hg hinterned hhas h hinner hint loc hlike)
    rintro object u ⟨hobject, hlike⟩
    exact finds_otherMembers hg hinterned hhas h hinner hint loc hobject hlike

end

end

theorem settles_combine {M : Moments} (hcovers : Covering M unify) (hg : g.Sound)
    (hinterned : g.Interned) (hhas : ∀ h ∈ types, g.Has h) (hr : g.Has r)
    (hjoint : g.JointBy inner {h | h ∈ types} r)
    (hinner : ∀ inside k, inside ≠ [] → (∀ h ∈ inside, g.Has h) → g.Has k →
      inner {h | h ∈ inside} k → Settles unify E g inside k)
    (hclash : Leaves.records (g.leaves types) ≠ [] → Leaves.maps (g.leaves types) ≠ [] →
      ∀ t, E .recordMapConflict t) (hint : NameHint) (loc : Location)
    (hlike : g.Like False t.graph) :
    Ends (combine unify (g.leaves types) hint loc) (fun r' u => r' = r ∧ g.Like False u.graph)
      E t := by
  have hany : Leaves.shows (g.leaves types) (.primitive .any) = true ↔
      ∃ k, g.Among {h | h ∈ types} k ∧ g.kind? k = some (.primitive .any) :=
    (hg.shows_leaves_iff hhas).trans Graph.showsAmong_iff
  unfold combine
  rw [Leaves.has_eq_shows (by decide), Leaves.hasNull_eq_shows]
  split
  . next hconflict => exact alike_fail (hclash hconflict.1 hconflict.2 t)
  . next hconflict =>
    split
    . next habsorbs =>
      cases hjoint with
      | any _ hshape =>
        have hmap : Key.isMap (.primitive .any) = false := rfl
        exact finds_shape hinterned hlike hshape hmap (Key.same_refl _) _ _
      | gathered hnone _ =>
        obtain ⟨k, hk, hkind⟩ := hany.1 habsorbs
        exact absurd hkind (hnone k hk)
    . next habsorbs =>
      cases hjoint with
      | any hsome _ => exact absurd (hany.2 hsome) habsorbs
      | gathered hnone h =>
        have hleaves : ∀ leaf ∈ g.leaves types, t.graph.shape? leaf.1 = some leaf.2 ∧
            ∀ members, leaf.2 ≠ .union members := by
          intro leaf hleaf
          rw [hlike.shapes.leaves] at hleaf
          exact Graph.shape?_of_mem_leaves hleaf
        have hpicks := picks_ascending hcovers _ hint loc (hlike.sound hg) hleaves hconflict
        apply Alike.next (((finds_members hg hinterned hhas h hinner hint loc hlike).and
          hpicks).mono (fun _ _ => id) fun _ _ h => h.1)
        rintro found u ⟨⟨hfound, hlike⟩, hpicked, hascends⟩
        rw [← hlike.rank?_eq] at hascends
        exact finds_package hg hinterned hlike hascends
          (packs_of_found hg hhas h hr hnone hfound hlike hpicked hascends) hint

theorem not_offers_record_and_map (hg : g.Sound) (hr : g.Has r) {k' : Handle} (hk : g.Offers r k)
    (hkind : g.kind? k = some .record) (hk' : g.Offers r k') (hkind' : g.kind? k' = some .map) :
    False := by
  have hrank : g.rank? k = some 0 := by
    rw [g.rank?_eq_bind, hkind]
    rfl
  have hrank' : g.rank? k' = some 0 := by
    rw [g.rank?_eq_bind, hkind']
    rfl
  have hany : g.shape? r ≠ some (.primitive .any) := by
    intro hshape
    obtain rfl : k = r := by simpa using (Graph.offers_iff hshape).1 hk
    rw [Graph.kind?_of_shape? hshape] at hkind
    cases hkind
  obtain ⟨found, withNull, hascends, hpacks⟩ := hg.exists_packs hr hany
  have hmem : k ∈ found := (hpacks.mem_iff hg hascends).2 ⟨hk, 0, hrank⟩
  have hmem' : k' ∈ found := (hpacks.mem_iff hg hascends).2 ⟨hk', 0, hrank'⟩
  obtain rfl := hascends.eq_of_rank? hmem hmem' (hrank.trans hrank'.symm)
  cases hkind.symm.trans hkind'

theorem set_eq_singleton (htypes : types ≠ []) (hsame : ∀ h ∈ types, h = r) :
    {h | h ∈ types} = {r} := by
  ext h
  constructor
  . exact hsame h
  . rintro rfl
    obtain ⟨k, hmem⟩ := List.exists_mem_of_ne_nil types htypes
    exact hsame k hmem ▸ hmem

theorem no_conflict_of_same (hg : g.Sound) (hr : g.Has r) (htypes : types ≠ [])
    (hsame : ∀ h ∈ types, h = r) (hrecords : Leaves.records (g.leaves types) ≠ []) :
    Leaves.maps (g.leaves types) = [] := by
  by_contra hmaps
  have hhas : ∀ h ∈ types, g.Has h := fun h hmem => hsame h hmem ▸ hr
  have hoffers : ∀ {k}, g.Among {h | h ∈ types} k → g.Offers r k := by
    intro k hk
    rwa [set_eq_singleton htypes hsame, Graph.among_singleton] at hk
  obtain ⟨record, hrecord⟩ := List.exists_mem_of_ne_nil _ hrecords
  obtain ⟨map, hmap⟩ := List.exists_mem_of_ne_nil _ hmaps
  obtain ⟨hrecord, hkind⟩ := (hg.mem_records_leaves hhas).1 hrecord
  obtain ⟨hmap, hkind'⟩ := (hg.mem_maps_leaves hhas).1 hmap
  exact not_offers_record_and_map hg hr (hoffers hrecord) hkind (hoffers hmap) hkind'

theorem eq_of_joint_single {h : Handle} (hg : g.Sound) (hinterned : g.Interned) (hhas : g.Has h)
    (hr : g.Has r) (hjoint : g.Joint {k | k ∈ [h]} r) : h = r := by
  simp only [List.mem_singleton, Set.ofPred_eq_eq_singleton] at hjoint
  exact (hg.joint_self h).unique hjoint hg hinterned hhas hr

theorem settles_unifyWithin (hg : g.Sound) (hinterned : g.Interned) (hhas : ∀ h ∈ types, g.Has h)
    (hr : g.Has r) (hjoint : g.Joint {h | h ∈ types} r) (depth : Nat) :
    Settles (unifyWithin depth) (fun _ _ => True) g types r := by
  induction depth generalizing types r with
  | zero =>
    intro hint loc t hlike
    match types with
    | [] => exact alike_fail trivial
    | [h] =>
      have hsame := eq_of_joint_single hg hinterned (hhas h (List.mem_singleton_self _)) hr hjoint
      exact alike_pure ⟨hsame, hlike⟩
    | _ :: _ :: _ => exact alike_fail trivial
  | succ depth ih =>
    intro hint loc t hlike
    match types with
    | [] => exact alike_fail trivial
    | [h] =>
      have hsame := eq_of_joint_single hg hinterned (hhas h (List.mem_singleton_self _)) hr hjoint
      exact alike_pure ⟨hsame, hlike⟩
    | h :: k :: rest =>
      simp only [unifyWithin]
      apply alike_state_bind
      rw [← hlike.shapes.leaves]
      exact settles_combine (covering_unifyWithin .all depth) hg hinterned hhas hr
        (Graph.joint_iff.1 hjoint) (fun _ _ _ hhas hk hjoint => ih hhas hk hjoint)
        (fun _ _ _ => trivial) hint loc hlike

theorem settles_same (hg : g.Sound) (hinterned : g.Interned) (hr : g.Has r) (htypes : types ≠ [])
    (hsame : ∀ h ∈ types, h = r) {depth : Nat}
    (hE : depth ≤ r.index → ∀ loc t, E (.endlessUnification loc) t) :
    Settles (unifyWithin depth) E g types r := by
  induction depth generalizing types r with
  | zero =>
    intro hint loc t hlike
    match types with
    | [] => exact absurd rfl htypes
    | [h] => exact alike_pure ⟨hsame h (List.mem_singleton_self _), hlike⟩
    | _ :: _ :: _ => exact alike_fail (hE (Nat.zero_le _) loc t)
  | succ depth ih =>
    intro hint loc t hlike
    match types with
    | [] => exact absurd rfl htypes
    | [h] => exact alike_pure ⟨hsame h (List.mem_singleton_self _), hlike⟩
    | h :: k :: rest =>
      simp only [unifyWithin]
      apply alike_state_bind
      rw [← hlike.shapes.leaves]
      have hhas : ∀ h' ∈ h :: k :: rest, g.Has h' := fun h' hmem => hsame h' hmem ▸ hr
      -- What is inside a type has a smaller index.
      have hjoint : g.JointBy (fun inside items => inside = {items} ∧ items.index < r.index)
          {h' | h' ∈ h :: k :: rest} r :=
        set_eq_singleton htypes hsame ▸ hg.jointBy_self fun items hlt => ⟨rfl, hlt⟩
      refine settles_combine (covering_unifyWithin .all depth) hg hinterned hhas hr hjoint ?_
        (fun hrecords hmaps => absurd (no_conflict_of_same hg hr htypes hsame hrecords) hmaps) hint
        loc hlike
      rintro inside items hne - hitems ⟨heq, hlt⟩
      refine ih hitems hne (fun h' hmem => ?_) fun hle => hE (by omega)
      have hmem : h' ∈ {h | h ∈ inside} := hmem
      rwa [heq] at hmem

theorem settles_unify (hg : g.Sound) (hinterned : g.Interned) (hhas : ∀ h ∈ types, g.Has h)
    (hr : g.Has r) (hjoint : g.Joint {h | h ∈ types} r) :
    Settles Unification.unify (fun _ _ => True) g types r := by
  intro hint loc t hlike
  unfold Unification.unify
  apply alike_state_bind
  exact settles_unifyWithin hg hinterned hhas hr hjoint _ hint loc t hlike

end

end Unification

end SchemaGraph
