import SchemaGraph.Proofs.Session.Alternatives
import SchemaGraph.Proofs.Unification.JointTypes

/-!
This module contains the proof that a unification finds the joint type of the types that it is
given, as long as it does not merge records. Each member of the result is what the joint type asks
for: its kind is decided by the alternatives of the given types, and the types inside it come from
nested unifications.
-/

namespace SchemaGraph

def Event.isMerge : Event → Bool
  | .merged _ _ => true
  | _ => false

def State.merges (s : State) : Nat :=
  s.journal.countP Event.isMerge

theorem State.merges_cons (s : State) (event : Event) :
    State.merges { s with journal := event :: s.journal } =
      s.merges + if event.isMerge then 1 else 0 :=
  List.countP_cons

theorem State.merges_merged (s : State) (loc : Location) (records : List Handle) :
    State.merges { s with journal := .merged loc records :: s.journal } = s.merges + 1 :=
  s.merges_cons _

theorem State.merges_joined (s : State) (loc : Location) (reads : List (Handle × Handle)) :
    State.merges { s with journal := .joined loc reads :: s.journal } = s.merges :=
  s.merges_cons _

namespace Graph

variable {g g' : Graph} {types : List Handle} {k : Handle} {shape : Shape}

theorem showsAmong_iff {kind : Kind} :
    g.ShowsAmong types kind ↔ ∃ k, g.Among {h | h ∈ types} k ∧ g.kind? k = some kind := by
  constructor
  . rintro ⟨type, hmem, k, hoffers, hkind⟩
    exact ⟨k, ⟨type, hmem, hoffers⟩, hkind⟩
  . rintro ⟨k, ⟨type, hmem, hoffers⟩, hkind⟩
    exact ⟨type, hmem, k, hoffers, hkind⟩

theorem exists_case_iff {text : String} :
    (∃ type ∈ types, ∃ k cases, g.Offers type k ∧ g.shape? k = some (.enum cases) ∧ text ∈ cases) ↔
      ∃ k cases, g.Among {h | h ∈ types} k ∧ g.shape? k = some (.enum cases) ∧ text ∈ cases := by
  constructor
  . rintro ⟨type, hmem, k, cases, hoffers, hcases⟩
    exact ⟨k, cases, ⟨type, hmem, hoffers⟩, hcases⟩
  . rintro ⟨k, cases, ⟨type, hmem, hoffers⟩, hcases⟩
    exact ⟨type, hmem, k, cases, hoffers, hcases⟩

theorem Sound.mem_leaves_iff_among (hg : g.Sound) (hhas : ∀ h ∈ types, g.Has h)
    (hunion : ∀ members, shape ≠ .union members) :
    (k, shape) ∈ g.leaves types ↔ g.Among {h | h ∈ types} k ∧ g.shape? k = some shape := by
  rw [hg.mem_leaves_iff hhas]
  exact and_congr_right fun _ => and_iff_left hunion

theorem Sound.mem_maps_leaves (hg : g.Sound) (hhas : ∀ h ∈ types, g.Has h) :
    k ∈ Leaves.maps (g.leaves types) ↔ g.Among {h | h ∈ types} k ∧ g.kind? k = some .map := by
  rw [Leaves.mem_maps_iff]
  constructor
  . rintro ⟨values, hleaf⟩
    obtain ⟨hk, hshape⟩ := (hg.mem_leaves_iff_among hhas (by nofun)).1 hleaf
    exact ⟨hk, kind?_of_shape? hshape⟩
  . rintro ⟨hk, hkind⟩
    obtain ⟨values, hshape⟩ := shape?_of_kind? hkind
    exact ⟨values, (hg.mem_leaves_iff_among hhas (by nofun)).2 ⟨hk, hshape⟩⟩

theorem Sound.mem_records_leaves (hg : g.Sound) (hhas : ∀ h ∈ types, g.Has h) :
    k ∈ Leaves.records (g.leaves types) ↔
      g.Among {h | h ∈ types} k ∧ g.kind? k = some .record := by
  rw [Leaves.mem_records_iff]
  constructor
  . rintro ⟨fields, hleaf⟩
    obtain ⟨hk, hshape⟩ := (hg.mem_leaves_iff_among hhas (by nofun)).1 hleaf
    exact ⟨hk, kind?_of_shape? hshape⟩
  . rintro ⟨hk, hkind⟩
    obtain ⟨fields, hshape⟩ := shape?_of_kind? hkind
    exact ⟨fields, (hg.mem_leaves_iff_among hhas (by nofun)).2 ⟨hk, hshape⟩⟩

theorem Grows.items_leaves (hgrows : g.Grows g') (hg : g.Sound) (hhas : ∀ h ∈ types, g.Has h) :
    {items | items ∈ Leaves.items (g.leaves types)} = g'.Contents g'.itemsOf? {h | h ∈ types} := by
  have hset : ∀ h ∈ {h | h ∈ types}, g.Has h := hhas
  rw [hgrows.contents_eq hg hset fun k hk => hgrows.itemsOf?_eq hk]
  ext items
  rw [Set.mem_ofPred_eq, Leaves.mem_items_iff]
  apply exists_congr
  intro k
  rw [itemsOf?_eq_some]
  exact hg.mem_leaves_iff_among hhas nofun

theorem Grows.values_leaves (hgrows : g.Grows g') (hg : g.Sound) (hhas : ∀ h ∈ types, g.Has h) :
    {values | values ∈ (g.valuesRead (Leaves.maps (g.leaves types))).map Prod.snd} =
      g'.Contents g'.valuesOf? {h | h ∈ types} := by
  have hset : ∀ h ∈ {h | h ∈ types}, g.Has h := hhas
  rw [hgrows.contents_eq hg hset fun k hk => hgrows.valuesOf?_eq hk]
  ext values
  constructor
  . intro hmem
    obtain ⟨⟨k, values'⟩, hread, rfl⟩ := List.mem_map.1 hmem
    obtain ⟨hk, hvalues⟩ := mem_valuesRead.1 hread
    exact ⟨k, ((hg.mem_maps_leaves hhas).1 hk).1, hvalues⟩
  . rintro ⟨k, hk, hvalues⟩
    have hmap := (hg.mem_maps_leaves hhas).2 ⟨hk, kind?_of_valuesOf? hvalues⟩
    exact List.mem_map.2 ⟨(k, values), mem_valuesRead.2 ⟨hmap, hvalues⟩, rfl⟩

theorem Sound.has_of_mem_items (hg : g.Sound) {items : Handle}
    (hmem : items ∈ Leaves.items (g.leaves types)) : g.Has items := by
  obtain ⟨k, hleaf⟩ := Leaves.mem_items_iff.1 hmem
  exact hg.inside (shape?_of_mem_leaves hleaf).1 items (List.mem_singleton_self _)

theorem valuesRead_ne_nil {maps : List Handle} (hmem : k ∈ maps) (hkind : g.kind? k = some .map) :
    (g.valuesRead maps).map Prod.snd ≠ [] := by
  obtain ⟨values, hvalues⟩ := exists_valuesOf?_of_kind? hkind
  exact List.ne_nil_of_mem (List.mem_map_of_mem (mem_valuesRead.2 ⟨hmem, hvalues⟩))

end Graph

structure State.Advances (s t : State) : Prop where
  extends_ : s.graph.Extends t.graph
  interned : t.graph.Interned
  merges_le : s.merges ≤ t.merges

namespace State.Advances

variable {s t u : State}

theorem refl (hs : s.graph.Interned) : s.Advances s :=
  ⟨.refl _, hs, Nat.le_refl _⟩

theorem trans (h : s.Advances t) (h' : t.Advances u) : s.Advances u :=
  ⟨h.extends_.trans h'.extends_, h'.interned, Nat.le_trans h.merges_le h'.merges_le⟩

theorem note (h : s.Advances t) (event : Event) :
    s.Advances { t with journal := event :: t.journal } := by
  refine ⟨h.extends_, h.interned, Nat.le_trans h.merges_le ?_⟩
  rw [t.merges_cons event]
  exact Nat.le_add_right _ _

theorem share (hs : s.graph.Interned) (key : Key) (hint : Option NameHint) :
    s.Advances { s with graph := (s.graph.share key key.shape hint).2 } :=
  ⟨Graph.extends_share _ _ _ _, hs.share (Graph.findsOrMakes_share _ _ _ _), Nat.le_refl _⟩

theorem merges_eq (h : s.Advances t) (h' : t.Advances u) (hmerges : u.merges = s.merges) :
    t.merges = s.merges ∧ u.merges = t.merges := by
  have hle := h.merges_le
  have hle' := h'.merges_le
  omega

end State.Advances

namespace Unification

open Effect

theorem upkeep_advances (s : State) :
    Upkeep (fun _ => True) (fun t => s.Advances t) (fun _ t => s.Advances t) where
  children _ _ _ _ _ := trivial
  share ht _ _ := ⟨trivial, ht.trans (.share ht.interned _ _)⟩
  record _ ht _ := ⟨trivial, ht.extends_.trans ⟨Graph.grows_push _ _, List.Subset.refl _⟩,
    ht.interned.push _ (Shape.isUnshared_record _), ht.merges_le⟩
  merged ht := ht.note _
  joined ht _ := ht.note _
  clash ht _ := ht

theorem upkeep_merges (n : Nat) :
    Upkeep (fun _ => True) (fun s => n ≤ s.merges) (fun _ s => n ≤ s.merges) where
  children _ _ _ _ _ := trivial
  share hs _ _ := ⟨trivial, hs⟩
  record _ hs _ := ⟨trivial, hs⟩
  merged hs := by
    rw [State.merges_merged]
    exact Nat.le_succ_of_le hs
  joined hs _ := by rwa [State.merges_joined]
  clash hs _ := hs

def KeepsMerges (unify : Unify) : Prop :=
  ∀ n, Upholds (fun _ => True) (fun s => n ≤ s.merges) (fun _ s => n ≤ s.merges) unify unify

theorem merges_joinRecords {unify : Unify} (hunify : KeepsMerges unify) (record record' : Handle)
    (rest : List Handle) (hint : NameHint) (loc : Location) (s : State) :
    Ends (joinRecords unify (record :: record' :: rest) hint loc) (fun _ t => s.merges < t.merges)
      (fun fault t => s.merges < t.merges ∨
        fault = .unresolvedRecursion .unfinishedRecord loc ∧ t = s) s := by
  unfold joinRecords
  apply alike_state_bind
  apply alike_check_bind
  . exact fun fault hfault => Or.inr ⟨filledFields_eq_error hfault, rfl⟩
  intro all hall
  apply alike_change_bind
  have hnoted : s.merges + 1 ≤ State.merges
      { s with journal := .merged loc (record :: record' :: rest) :: s.journal } :=
    Nat.le_of_eq (s.merges_merged _ _).symm
  apply Alike.next (((upkeep_merges _).alike_mergeGathered (hunify _) _ _ (fun _ _ _ _ => trivial)
    hnoted).mono (fun _ _ => id) fun _ _ => Or.inl)
  rintro fields t ⟨-, ht⟩
  have hrecord : Ends (build fun g => g.addRecord hint (.filled fields))
      (fun _ u => s.merges < u.merges) (fun fault u => s.merges < u.merges ∨
        fault = .unresolvedRecursion .unfinishedRecord loc ∧ u = s) t := alike_build ht
  apply hrecord.next
  intro r u hu
  exact alike_pure hu

/--
A type has been found or made. If no records have been merged for it then it is the joint type of
the given ones.
-/
structure Joins (types : List Handle) (s : State) (r : Handle) (t : State) : Prop where
  sound : t.graph.Sound
  advances : s.Advances t
  has : t.graph.Has r
  joint : t.merges = s.merges → t.graph.Joint {h | h ∈ types} r

structure Joining (unify : Unify) : Prop where
  covers : Covering .all unify
  upholds (s : State) : Upholds (fun _ => True) (fun t => s.Advances t) (fun _ t => s.Advances t)
    unify unify
  merges : KeepsMerges unify
  joins {types s} hint loc : s.graph.Sound → s.graph.Interned → (∀ h ∈ types, s.graph.Has h) →
    types ≠ [] → Returns (unify types hint loc) (Joins types s) s

structure Fitting (types : List Handle) (s : State) (found : List Handle) (t : State) : Prop where
  sound : t.graph.Sound
  advances : s.Advances t
  has : ∀ k ∈ found, t.graph.Has k
  fits : t.merges = s.merges → ∀ k ∈ found, t.graph.Fits t.graph.Joint {h | h ∈ types} k

variable {types found found' : List Handle} {kinds : List Kind} {leaves : List Leaf}
  {s t u : State} {g : Graph} {unify : Unify}

theorem Fitting.nil (hs : s.graph.Sound) (hinterned : s.graph.Interned) : Fitting types s [] s :=
  ⟨hs, .refl hinterned, nofun, nofun⟩

theorem Fitting.append (h : Fitting types s found t) (h' : Fitting types t found' u)
    (hhas : ∀ h ∈ types, s.graph.Has h) : Fitting types s (found ++ found') u := by
  have hextends := h'.advances.extends_
  refine ⟨h'.sound, h.advances.trans h'.advances, ?_, ?_⟩
  . intro k hk
    rcases List.mem_append.1 hk with hk | hk
    . exact hextends.grows.has k (h.has k hk)
    . exact h'.has k hk
  . intro hmerges k hk
    obtain ⟨hbefore, hafter⟩ := h.advances.merges_eq h'.advances hmerges
    rcases List.mem_append.1 hk with hk | hk
    . refine (h.fits hbefore k hk).extend hextends h.sound
        (fun type hmem => h.advances.extends_.grows.has type (hhas type hmem)) (h.has k hk) ?_
      exact fun _ _ hjoint hhas hr => hjoint.extend hextends h.sound hhas hr
    . exact h'.fits hafter k hk

theorem Picked.fitting (h : Picked leaves kinds s found t) (hadvances : s.Advances t)
    (hkinds : ∀ kind ∈ [.record, .map, .array], kind ∉ kinds) : Fitting types s found t := by
  refine ⟨h.sound, hadvances, ?_, ?_⟩
  . intro k hk
    obtain ⟨kind, -, hkind⟩ := h.exists_kind hk
    exact Graph.has_of_kind? hkind
  . intro _ k hk
    apply Graph.fits_of_kind?
    intro kind hmem hkind
    obtain ⟨kind', hmem', hkind'⟩ := h.exists_kind hk
    cases hkind.symm.trans hkind'
    exact hkinds kind hmem hmem'

structure Shares (key : Key) (s : State) (r : Handle) (t : State) : Prop where
  sound : t.graph.Sound
  advances : s.Advances t
  shape : t.graph.shape? r = some key.shape
  entry : ∃ key' : Key, key'.same key = true ∧ (key', r) ∈ t.graph.shared
  merges : t.merges = s.merges

theorem shares_build {key : Key} {hint : Option NameHint} (hinterned : s.graph.Interned)
    (hgives : s.graph.Gives (s.graph.share key key.shape hint) key.shape) :
    Returns (build fun g => g.share key key.shape hint) (Shares key s) s := by
  apply alike_build
  refine ⟨hgives.sound, .share hinterned _ _, hgives.shape, ?_, rfl⟩
  rcases Graph.findsOrMakes_share s.graph key key.shape hint with
    ⟨hsame, hmem, hshared, -⟩ | ⟨-, -, hshared, -⟩
  . exact ⟨_, hsame, hshared ▸ hmem⟩
  . exact ⟨key, Key.same_refl key, hshared ▸ List.mem_cons_self ..⟩

theorem Joins.fitting {inner : List Handle} {key : Key} {joined r : Handle}
    (h : Joins inner s joined t) (hshares : Shares key t r u)
    (hinner : ∀ h ∈ inner, s.graph.Has h)
    (hfits : u.graph.Joint {h | h ∈ inner} joined →
      u.graph.Fits u.graph.Joint {h | h ∈ types} r) : Fitting types s [r] u := by
  refine ⟨hshares.sound, h.advances.trans hshares.advances, ?_, ?_⟩
  . intro k hk
    rw [List.mem_singleton.1 hk]
    exact Graph.has_of_shape? hshares.shape
  . intro hmerges k hk
    rw [List.mem_singleton.1 hk]
    rw [hshares.merges] at hmerges
    apply hfits
    exact (h.joint hmerges).extend hshares.advances.extends_ h.sound
      (fun type hmem => h.advances.extends_.grows.has type (hinner type hmem)) h.has

theorem fits_joinArrays (hunify : Joining unify) (hg : g.Sound) (hhas : ∀ h ∈ types, g.Has h)
    (hgs : g.Grows s.graph) (hs : s.graph.Sound) (hinterned : s.graph.Interned) (hint : NameHint)
    (loc : Location) :
    Returns (joinArrays unify (Leaves.items (g.leaves types)) hint loc) (Fitting types s) s := by
  unfold joinArrays
  split
  . exact alike_pure (.nil hs hinterned)
  . next hsome =>
    have hitems : ∀ items ∈ Leaves.items (g.leaves types), s.graph.Has items :=
      fun items hmem => hgs.has items (hg.has_of_mem_items hmem)
    apply (hunify.joins _ _ hs hinterned hitems hsome).next
    intro joined t hjoined
    apply (shares_build hjoined.advances.interned
      (Graph.gives_addArray hjoined.sound hjoined.has)).next
    intro r u hshares
    apply alike_pure
    apply hjoined.fitting hshares hitems
    intro hjoint
    have hadvances := hjoined.advances.trans hshares.advances
    have hkind : u.graph.kind? r = some .array := Graph.kind?_of_shape? hshares.shape
    refine ⟨?_, ?_, ?_⟩
    . intro items hitems
      cases hshares.shape.symm.trans (Graph.itemsOf?_eq_some.1 hitems)
      rwa [← (hgs.trans hadvances.extends_.grows).items_leaves hg hhas]
    . intro k' hrecord
      cases hkind.symm.trans hrecord
    . intro hmap
      cases hkind.symm.trans hmap

theorem Fitting.lone {kind : Kind} {k : Handle} (hs : s.graph.Sound)
    (hinterned : s.graph.Interned) (hkind : s.graph.kind? k = some kind)
    (hobject : kind = .record ∨ kind = .map)
    (hlone : ∀ k', s.graph.Among {h | h ∈ types} k' → s.graph.kind? k' = some kind → k' = k) :
    Fitting types s [k] s := by
  refine ⟨hs, .refl hinterned, ?_, ?_⟩
  . intro k' hk'
    rw [List.mem_singleton.1 hk']
    exact Graph.has_of_kind? hkind
  . intro _ k' hk'
    rw [List.mem_singleton.1 hk']
    refine ⟨?_, ?_, ?_⟩
    . intro items hitems
      cases hkind.symm.trans (Graph.kind?_of_itemsOf? hitems)
      rcases hobject with heq | heq
      . cases heq
      . cases heq
    . intro l hrecord
      cases hkind.symm.trans hrecord
      exact hlone l
    . intro hmap
      cases hkind.symm.trans hmap
      exact Or.inl hlone

theorem fits_joinMaps (hunify : Joining unify) (hhas : ∀ h ∈ types, s.graph.Has h)
    (hs : s.graph.Sound) (hinterned : s.graph.Interned) (hint : NameHint) (loc : Location) :
    Returns (joinMaps unify (Leaves.maps (s.graph.leaves types)) hint loc) (Fitting types s) s := by
  have hmaps : ∀ k, k ∈ Leaves.maps (s.graph.leaves types) ↔
      s.graph.Among {h | h ∈ types} k ∧ s.graph.kind? k = some .map :=
    fun k => hs.mem_maps_leaves hhas
  have hnodup : (Leaves.maps (s.graph.leaves types)).Nodup := nodup_distinct _
  have hcontents {g' : Graph} (hgrows : s.graph.Grows g') := hgrows.values_leaves hs hhas
  generalize Leaves.maps (s.graph.leaves types) = maps at hmaps hnodup hcontents ⊢
  match maps with
  | [] => exact alike_pure (.nil hs hinterned)
  | [map] =>
    apply alike_pure
    obtain ⟨-, hkind⟩ := (hmaps map).1 (List.mem_singleton_self _)
    refine .lone hs hinterned hkind (Or.inr rfl) ?_
    exact fun k' hk' hkind' => List.mem_singleton.1 ((hmaps k').2 ⟨hk', hkind'⟩)
  | map :: map' :: rest =>
    unfold joinMaps
    apply alike_state_bind
    dsimp only
    apply alike_change_bind
    have hmerges := s.merges_joined loc (s.graph.valuesRead (map :: map' :: rest))
    have hnoted := (State.Advances.refl hinterned).note
      (.joined loc (s.graph.valuesRead (map :: map' :: rest)))
    generalize hstate : { s with
      journal := .joined loc (s.graph.valuesRead (map :: map' :: rest)) :: s.journal } = noted
      at hmerges hnoted ⊢
    have hgraph : noted.graph = s.graph := by rw [← hstate]
    have hvalues : ∀ values ∈ (s.graph.valuesRead (map :: map' :: rest)).map Prod.snd,
        s.graph.Has values := fun _ => hs.has_of_mem_valuesRead
    have hsome : (s.graph.valuesRead (map :: map' :: rest)).map Prod.snd ≠ [] :=
      Graph.valuesRead_ne_nil (List.mem_cons_self ..) ((hmaps map).1 (List.mem_cons_self ..)).2
    apply (hunify.joins _ _ (hgraph ▸ hs) hnoted.interned (hgraph ▸ hvalues) hsome).next
    intro joined t hjoined
    replace hjoined : Joins _ s joined t := ⟨hjoined.sound, hnoted.trans hjoined.advances,
      hjoined.has, fun hsame => hjoined.joint (hsame.trans hmerges.symm)⟩
    apply (shares_build hjoined.advances.interned
      (Graph.gives_addMap hjoined.sound hjoined.has)).next
    intro r u hshares
    apply alike_pure
    apply hjoined.fitting hshares hvalues
    intro hjoint
    have hgrows := (hjoined.advances.trans hshares.advances).extends_.grows
    have hkind : u.graph.kind? r = some .map := Graph.kind?_of_shape? hshares.shape
    refine ⟨?_, ?_, ?_⟩
    . intro items hitems
      cases hkind.symm.trans (Graph.kind?_of_itemsOf? hitems)
    . intro k' hrecord
      cases hkind.symm.trans hrecord
    . intro _
      have hset : ∀ h ∈ {h | h ∈ types}, s.graph.Has h := hhas
      refine Or.inr ⟨(hgrows.manyMaps_iff hs hset).2 ?_, joined, ?_, ?_⟩
      . obtain ⟨hmap, hmapkind⟩ := (hmaps map).1 (List.mem_cons_self ..)
        obtain ⟨hmap', hmapkind'⟩ := (hmaps map').1 (List.mem_cons_of_mem _ (List.mem_cons_self ..))
        refine ⟨map, map', hmap, hmap', hmapkind, hmapkind', ?_⟩
        rintro rfl
        exact (List.nodup_cons.1 hnodup).1 (List.mem_cons_self ..)
      . obtain ⟨key', hsame, hmem⟩ := hshares.entry
        cases key' with
        | map values => rwa [of_decide_eq_true hsame] at hmem
        | _ => cases hsame
      . rwa [← hcontents hgrows]

theorem fits_joinRecords (hunify : Joining unify) (hhas : ∀ h ∈ types, s.graph.Has h)
    (hs : s.graph.Sound) (hinterned : s.graph.Interned) (hint : NameHint) (loc : Location) :
    Returns (joinRecords unify (Leaves.records (s.graph.leaves types)) hint loc)
      (Fitting types s) s := by
  have hrecords : ∀ k, k ∈ Leaves.records (s.graph.leaves types) ↔
      s.graph.Among {h | h ∈ types} k ∧ s.graph.kind? k = some .record :=
    fun k => hs.mem_records_leaves hhas
  have hpicks := picks_joinRecords hunify.covers (s.graph.leaves types) hint loc hs (by
    intro record hmem
    obtain ⟨fields, hleaf⟩ := Leaves.mem_records_iff.1 hmem
    exact ⟨fields, (Graph.shape?_of_mem_leaves hleaf).1⟩)
  generalize Leaves.records (s.graph.leaves types) = records at hrecords hpicks ⊢
  match records with
  | [] => exact alike_pure (.nil hs hinterned)
  | [record] =>
    apply alike_pure
    obtain ⟨-, hkind⟩ := (hrecords record).1 (List.mem_singleton_self _)
    refine .lone hs hinterned hkind (Or.inl rfl) ?_
    exact fun k' hk' hkind' => List.mem_singleton.1 ((hrecords k').2 ⟨hk', hkind'⟩)
  | record :: record' :: rest =>
    have hadvances : Ends (joinRecords unify (record :: record' :: rest) hint loc)
        (fun found t => (∀ h ∈ found, True) ∧ s.Advances t) (fun _ t => s.Advances t) s :=
      (upkeep_advances s).alike_joinRecords (hunify.upholds s) (fun _ _ => trivial)
        (fun _ _ _ _ _ _ => trivial) hint loc (.refl hinterned)
    have hmerges := merges_joinRecords hunify.merges record record' rest hint loc s
    apply (hpicks.and (hadvances.and hmerges)).mono
    . rintro found t ⟨hpicked, ⟨-, hadvances⟩, hlt⟩
      refine ⟨hpicked.sound, hadvances, ?_, fun heq => absurd heq (Nat.ne_of_gt hlt)⟩
      intro k hk
      obtain ⟨kind, -, hkind⟩ := hpicked.exists_kind hk
      exact Graph.has_of_kind? hkind
    . exact fun _ _ _ => trivial

theorem fits_of_picks {e : Effect (List Handle)} (hpicks : Builds e (Picked leaves kinds s) s)
    (hends : Ends e (fun found t => (∀ h ∈ found, True) ∧ s.Advances t) (fun _ t => s.Advances t) s)
    (hkinds : ∀ kind ∈ [.record, .map, .array], kind ∉ kinds) :
    Returns e (Fitting types s) s :=
  (hpicks.and hends).mono (fun _ _ h => h.1.fitting h.2.2 hkinds) fun _ _ _ => trivial

theorem fits_otherMembers (hunify : Joining unify) (hg : g.Sound) (hhas : ∀ h ∈ types, g.Has h)
    (hgs : g.Grows s.graph) (hint : NameHint) (loc : Location) {object : List Handle}
    (hobject : Fitting types s object t) :
    Returns (otherMembers unify (g.leaves types) hint loc object) (Fitting types s) t := by
  have hthere : ∀ h ∈ types, s.graph.Has h := fun h hmem => hgs.has h (hhas h hmem)
  unfold otherMembers
  apply Alike.next (fits_of_picks (picks_primitives _ _ (by decide) hobject.sound)
    ((upkeep_advances t).ends_primitives _ _ (.refl hobject.advances.interned)) (by decide))
  intro scalars t₁ hscalars
  have hall := hobject.append hscalars hthere
  apply Alike.next (fits_of_picks (picks_joinStrings _ _ hall.sound)
    ((upkeep_advances t₁).ends_joinStrings _ _ (.refl hall.advances.interned)) (by decide))
  intro strings t₂ hstrings
  replace hall := hall.append hstrings hthere
  apply Alike.next (fits_of_picks (picks_primitives _ _ (by decide) hall.sound)
    ((upkeep_advances t₂).ends_primitives _ _ (.refl hall.advances.interned)) (by decide))
  intro moments t₃ hmoments
  replace hall := hall.append hmoments hthere
  apply Alike.next (fits_of_picks (picks_joinEnums _ _ hall.sound)
    ((upkeep_advances t₃).ends_joinEnums _ _ (.refl hall.advances.interned)) (by decide))
  intro enums t₄ henums
  replace hall := hall.append henums hthere
  apply (fits_joinArrays hunify hg hhas (hgs.trans hall.advances.extends_.grows) hall.sound
    hall.advances.interned hint loc).next
  intro arrays t₅ harrays
  exact alike_pure (hall.append harrays hthere)

theorem fits_members (hunify : Joining unify) (hhas : ∀ h ∈ types, s.graph.Has h)
    (hs : s.graph.Sound) (hinterned : s.graph.Interned) (hint : NameHint) (loc : Location) :
    Returns (members unify (s.graph.leaves types) hint loc) (Fitting types s) s := by
  rw [members_eq]
  split
  . apply (fits_joinRecords hunify hhas hs hinterned hint loc).next
    intro object t hobject
    exact fits_otherMembers hunify hs hhas (.refl _) hint loc hobject
  . apply (fits_joinMaps hunify hhas hs hinterned hint loc).next
    intro object t hobject
    exact fits_otherMembers hunify hs hhas (.refl _) hint loc hobject

theorem joint_of_packs {r : Handle} (hs : s.graph.Sound) (hhas : ∀ h ∈ types, s.graph.Has h)
    (htypes : types ≠ []) (hnone : ¬s.graph.ShowsAmong types (.primitive .any))
    (hpicked : Picked (s.graph.leaves types) memberKinds s found t)
    (hpacks : Packs t.graph found (Leaves.shows (s.graph.leaves types) (.primitive .null)) r)
    (hfits : ∀ k ∈ found, t.graph.Fits t.graph.Joint {h | h ∈ types} k) :
    t.graph.Joint {h | h ∈ types} r := by
  have hgathers := gathers_of_packs hs hhas hpicked htypes hnone hpacks
  have hgrows := hpicked.graph.grows
  have hset : ∀ h ∈ {h | h ∈ types}, s.graph.Has h := hhas
  have hkinds {kind : Kind} : s.graph.ShowsAmong types kind ↔
      ∃ k, t.graph.Among {h | h ∈ types} k ∧ t.graph.kind? k = some kind := by
    rw [Graph.showsAmong_iff]
    exact (hgrows.exists_among_iff hs hset fun k hk => by rw [hgrows.kind?_eq hk]).symm
  rw [Graph.joint_iff]
  refine .gathered ?_ ⟨?_, ?_, ?_⟩
  . exact fun k hk hkind => hnone (hkinds.2 ⟨k, hk, hkind⟩)
  . exact fun kind => (hgathers.shows_iff kind hnone).trans hkinds
  . intro k cases hoffers hshape text
    rw [hgathers.cases hoffers hshape text]
    have hiff : (∃ k', t.graph.Among {h | h ∈ types} k' ∧
        ∃ cases', t.graph.shape? k' = some (.enum cases') ∧ text ∈ cases') ↔
        ∃ k', s.graph.Among {h | h ∈ types} k' ∧
          ∃ cases', s.graph.shape? k' = some (.enum cases') ∧ text ∈ cases' :=
      hgrows.exists_among_iff hs hset fun k hk => by rw [hgrows.shape?_eq hk]
    rw [Graph.exists_case_iff]
    simp only [exists_and_left, hiff]
  . intro k hoffers
    by_cases hinner : ∃ kind ∈ [.record, .map, .array], t.graph.kind? k = some kind
    . obtain ⟨kind, hmem, hkind⟩ := hinner
      apply hfits
      refine (hpacks.offers_iff hpicked.sound hkind ?_).1 hoffers
      rintro rfl
      revert hmem
      decide
    . exact Graph.fits_of_kind? fun kind hmem hkind => hinner ⟨kind, hmem, hkind⟩

theorem joins_combine (hunify : Joining unify) (hhas : ∀ h ∈ types, s.graph.Has h)
    (hs : s.graph.Sound) (hinterned : s.graph.Interned) (htypes : types ≠ []) (hint : NameHint)
    (loc : Location) :
    Returns (combine unify (s.graph.leaves types) hint loc) (Joins types s) s := by
  have hany : Leaves.shows (s.graph.leaves types) (.primitive .any) = true ↔
    s.graph.ShowsAmong types (.primitive .any) := hs.shows_leaves_iff hhas
  unfold combine
  rw [Leaves.has_eq_shows (by decide), Leaves.hasNull_eq_shows]
  split
  . exact alike_fail trivial
  . next hconflict =>
    split
    . next habsorbs =>
      apply (shares_build hinterned (Graph.gives_addPrimitive hs .any)).mono _ (fun _ _ => id)
      intro r t hshares
      refine ⟨hshares.sound, hshares.advances, Graph.has_of_shape? hshares.shape, fun _ => ?_⟩
      rw [Graph.joint_iff]
      refine .any ?_ hshares.shape
      have hgrows := hshares.advances.extends_.grows
      have hset : ∀ h ∈ {h | h ∈ types}, s.graph.Has h := hhas
      rw [hgrows.exists_among_iff hs hset fun k hk => by rw [hgrows.kind?_eq hk]]
      exact Graph.showsAmong_iff.1 (hany.1 habsorbs)
    . next hnone =>
      have hpicks := picks_ascending hunify.covers _ hint loc hs
        (fun _ hleaf => Graph.shape?_of_mem_leaves hleaf) hconflict
      apply Alike.next (((fits_members hunify hhas hs hinterned hint loc).and hpicks).mono
        (fun _ _ => id) fun _ _ _ => trivial)
      rintro found t ⟨hfitting, hpicked, hascends⟩
      apply ((packs_package found _ hint hfitting.sound hascends).and
        ((upkeep_advances t).ends_package (fun _ _ => trivial) _ hint
          (.refl hfitting.advances.interned))).mono _ (fun _ _ _ => trivial)
      rintro r u ⟨⟨hgrown, hpacks⟩, -, hadvances⟩
      have hlater : Fitting types s (found ++ []) u :=
        hfitting.append ⟨hgrown.sound, hadvances, nofun, nofun⟩ hhas
      rw [List.append_nil] at hlater
      refine ⟨hgrown.sound, hlater.advances, Packs.has hpacks, fun hmerges => ?_⟩
      exact joint_of_packs hs hhas htypes (mt hany.2 hnone) (hpicked.later hgrown) hpacks
        (hlater.fits hmerges)

theorem keepsMerges_unifyWithin (depth : Nat) : KeepsMerges (unifyWithin depth) :=
  fun n => (upkeep_merges n).upholds_unifyWithin (fun _ _ => id) depth

theorem joins_single {h : Handle} (hs : s.graph.Sound) (hinterned : s.graph.Interned)
    (hhas : s.graph.Has h) : Joins [h] s h s := by
  refine ⟨hs, .refl hinterned, hhas, fun _ => ?_⟩
  simp only [List.mem_singleton, Set.ofPred_eq_eq_singleton]
  exact hs.joint_self h

theorem joining_unifyWithin (depth : Nat) : Joining (unifyWithin depth) := by
  induction depth with
  | zero =>
    refine ⟨covering_unifyWithin _ _, fun s => (upkeep_advances s).upholds_unifyWithin
      (fun _ _ => id) _, keepsMerges_unifyWithin _, ?_⟩
    intro types s hint loc hs hinterned hhas htypes
    match types with
    | [h] => exact alike_pure (joins_single hs hinterned (hhas h (List.mem_singleton_self _)))
    | _ :: _ :: _ => exact alike_fail trivial
  | succ depth ih =>
    refine ⟨covering_unifyWithin _ _, fun s => (upkeep_advances s).upholds_unifyWithin
      (fun _ _ => id) _, keepsMerges_unifyWithin _, ?_⟩
    intro types s hint loc hs hinterned hhas htypes
    match types with
    | [h] => exact alike_pure (joins_single hs hinterned (hhas h (List.mem_singleton_self _)))
    | h :: k :: rest =>
      simp only [unifyWithin]
      exact alike_state_bind (joins_combine ih hhas hs hinterned htypes hint loc)

theorem joins_unify (hs : s.graph.Sound) (hinterned : s.graph.Interned)
    (hhas : ∀ h ∈ types, s.graph.Has h) (htypes : types ≠ []) (hint : NameHint) (loc : Location) :
    Returns (Unification.unify types hint loc) (Joins types s) s := by
  unfold Unification.unify
  apply alike_state_bind
  exact (joining_unifyWithin _).joins hint loc hs hinterned hhas htypes

end Unification

end SchemaGraph
