import SchemaGraph.Proofs.Graph.Likeness
import SchemaGraph.Proofs.Reordering.Mirrors
import SchemaGraph.Proofs.Unification.Joining

/-!
This module contains the proof that there is only one joint type of some types. Every type but `any`
has a normal form: it consists of members, one for each kind, and possibly null. Sharing is exact, so
each member has only one node and so has the type that they are packed to.
-/

namespace SchemaGraph

open Unification

namespace Graph

theorem Like.kind?_eq {g g' : Graph} {named : Prop} (h : g.Like named g') : g.kind? = g'.kind? := by
  funext k
  unfold Graph.kind?
  rw [h.shapes k]

theorem Like.interned {g g' : Graph} {named : Prop} (h : g.Like named g') (hg : g.Interned) :
    g'.Interned where
  shape hmem := (h.shapes _).symm.trans (hg.shape (h.shared ▸ hmem))
  listed hshape hmap := h.shared ▸ hg.listed ((h.shapes _).trans hshape) hmap
  single hmem hmem' := hg.single (h.shared ▸ hmem) (h.shared ▸ hmem')

theorem Interned.finds {g : Graph} (hg : g.Interned) {key key' : Key} {k : Handle}
    (hmem : (key', k) ∈ g.shared) (hsame : key'.same key = true) (shape : Shape)
    (hint : Option NameHint) :
    (g.share key shape hint).1 = k ∧ g.Like False (g.share key shape hint).2 := by
  rcases findsOrMakes_share g key shape hint with
    ⟨hsame', hmem', hshared, hshape⟩ | ⟨hnew, -, -, -⟩
  . refine ⟨hg.single hmem' hmem (Key.same_trans hsame' (Key.same_symm hsame)), ?_⟩
    exact ⟨fun h => (hshape h).symm, hshared.symm, False.elim⟩
  . cases hsame.symm.trans (hnew key' k hmem)

section NormalForm

variable {g : Graph} {r k : Handle} {found : List Handle} {withNull : Bool} {shape : Shape}

theorem Sound.exists_isCore (hg : g.Sound) (hshape : g.shape? r = some shape)
    (hnull : admitsNull shape = false) :
    ∃ found, Ascends g.rank? 0 Shape.ranks found ∧ IsCore g found r := by
  have hself : ∀ rank, shape.rank? = some rank → rank < Shape.ranks →
      ∃ found, Ascends g.rank? 0 Shape.ranks found ∧ IsCore g found r := by
    intro rank hrank hlt
    have hr : g.rank? r = some rank := (rank?_of_shape? hshape).trans hrank
    exact ⟨[r], .single hr (Nat.zero_le _) hlt, Or.inl ⟨rfl, rank, hr⟩⟩
  cases shape with
  | union members =>
    exact ⟨members, (hg.allows hshape).2, Or.inr ⟨members, hshape, fun _ => Iff.rfl⟩⟩
  | nullable inner => cases hnull
  | primitive kind =>
    cases kind with
    | any => cases hnull
    | null => cases hnull
    | _ => exact hself _ rfl (by decide)
  | _ => exact hself _ rfl (by decide)

theorem Sound.exists_packs (hg : g.Sound) (hhas : g.Has r)
    (hany : g.shape? r ≠ some (.primitive .any)) :
    ∃ found withNull, Ascends g.rank? 0 Shape.ranks found ∧ Packs g found withNull r := by
  obtain ⟨shape, hshape⟩ := has_iff.1 hhas
  cases hnull : admitsNull shape with
  | false =>
    obtain ⟨found, hascends, hcore⟩ := hg.exists_isCore hshape hnull
    exact ⟨found, false, hascends, Or.inr ⟨r, hcore, Or.inl ⟨rfl, rfl⟩⟩⟩
  | true =>
    cases shape with
    | primitive kind =>
      cases kind with
      | any => exact absurd hshape hany
      | null => exact ⟨[], true, trivial, Or.inl ⟨rfl, hshape⟩⟩
      | _ => cases hnull
    | nullable inner =>
      obtain ⟨shape, hinner, hplain⟩ := hg.allows hshape
      obtain ⟨found, hascends, hcore⟩ := hg.exists_isCore hinner hplain
      exact ⟨found, true, hascends, Or.inr ⟨inner, hcore, Or.inr ⟨rfl, hshape⟩⟩⟩
    | _ => cases hnull

end NormalForm

end Graph

namespace Unification

open Effect

variable {g : Graph} {r r' k : Handle} {found : List Handle} {withNull : Bool}
  {E : Fault → State → Prop} {t : State}

theorem Packs.mem_iff (h : Packs g found withNull r) (hg : g.Sound)
    (hfound : Ascends g.rank? 0 Shape.ranks found) :
    k ∈ found ↔ g.Offers r k ∧ ∃ rank, g.rank? k = some rank := by
  constructor
  . intro hmem
    obtain ⟨rank, hrank, -⟩ := hfound.exists_rank hmem
    obtain ⟨kind, hkind, hnull⟩ := Graph.exists_kind_of_rank? hrank
    exact ⟨(h.offers_iff hg hkind hnull).2 hmem, rank, hrank⟩
  . rintro ⟨hoffers, rank, hrank⟩
    obtain ⟨kind, hkind, hnull⟩ := Graph.exists_kind_of_rank? hrank
    exact (h.offers_iff hg hkind hnull).1 hoffers

theorem packs_of_mem_iff (hg : g.Sound) (hhas : g.Has r)
    (hany : g.shape? r ≠ some (.primitive .any)) (hfound : Ascends g.rank? 0 Shape.ranks found)
    (hmem : ∀ k, k ∈ found ↔ g.Offers r k ∧ ∃ rank, g.rank? k = some rank)
    (hnull : found ≠ [] → (withNull = true ↔ g.Shows r (.primitive .null))) :
    Packs g found withNull r := by
  obtain ⟨found', withNull', hascends, hpacks⟩ := hg.exists_packs hhas hany
  obtain rfl : found = found' :=
    hfound.eq_of_mem_iff hascends fun k => (hmem k).trans (hpacks.mem_iff hg hascends).symm
  by_cases hnil : found = []
  . subst hnil
    exact Or.inl ⟨rfl, hpacks.shape?_of_nil hg⟩
  . have hsame : withNull = withNull' := by
      rw [Bool.eq_iff_iff, hnull hnil,
        hpacks.shows_null_iff hg fun k hk => ((hpacks.mem_iff hg hascends).1 hk).2]
      exact or_iff_left hnil
    rwa [hsame]

theorem IsCore.eq_of_single {core : Handle} (h : IsCore g [k] core) (hg : g.Sound)
    (hfound : Ascends g.rank? 0 Shape.ranks [k]) : k = core := by
  rcases h with ⟨heq, -⟩ | ⟨members, hshape, hmembers⟩
  . exact List.singleton_inj.1 heq
  . obtain ⟨hmany, hascends⟩ := hg.allows hshape
    rw [hascends.eq_of_mem_iff hfound hmembers] at hmany
    cases Nat.not_succ_le_self 1 hmany

theorem finds_share (hinterned : g.Interned) (hlike : g.Like False t.graph) {key key' : Key}
    (hmem : (key', k) ∈ g.shared) (hsame : key'.same key = true) (shape : Shape)
    (hint : Option NameHint) :
    Ends (build fun g => g.share key shape hint) (fun r u => r = k ∧ g.Like False u.graph) E t := by
  apply alike_build
  have hhint : False → hint = hint := fun _ => rfl
  obtain ⟨hhandle, hlike'⟩ := hlike.share key shape hhint
  obtain ⟨hfound, hstill⟩ := hinterned.finds hmem hsame shape hint
  exact ⟨hhandle.symm.trans hfound, hstill.trans hlike'⟩

theorem finds_shape (hinterned : g.Interned) (hlike : g.Like False t.graph) {key key' : Key}
    (hshape : g.shape? k = some key'.shape) (hmap : key'.isMap = false)
    (hsame : key'.same key = true) (shape : Shape) (hint : Option NameHint) :
    Ends (build fun g => g.share key shape hint) (fun r u => r = k ∧ g.Like False u.graph) E t :=
  finds_share hinterned hlike (hinterned.listed hshape hmap) hsame shape hint

theorem finds_package (hg : g.Sound) (hinterned : g.Interned) (hlike : g.Like False t.graph)
    (hfound : Ascends g.rank? 0 Shape.ranks found) (hpacks : Packs g found withNull r)
    (hint : NameHint) :
    Ends (package found withNull hint) (fun r' u => r' = r ∧ g.Like False u.graph) E t := by
  unfold package
  split
  . have hnull : Key.isMap (.primitive .null) = false := rfl
    exact finds_shape hinterned hlike (hpacks.shape?_of_nil hg) hnull (Key.same_refl _) _ _
  . next hsome =>
    obtain ⟨core, hcore, hnull⟩ : ∃ core, IsCore g found core ∧
        (withNull = false ∧ r = core ∨ withNull = true ∧ g.shape? r = some (.nullable core)) := by
      rcases hpacks with ⟨hnil, -⟩ | hpacks
      . exact absurd hnil hsome
      . exact hpacks
    have hwith : ∀ u : State, g.Like False u.graph →
        Ends (if withNull = true then build fun g => g.addNullable core hint else pure core)
          (fun r' u => r' = r ∧ g.Like False u.graph) E u := by
      intro u hlike
      rcases hnull with ⟨hwithout, rfl⟩ | ⟨hwith, hshape⟩
      . rw [hwithout]
        exact alike_pure ⟨rfl, hlike⟩
      . rw [if_pos hwith]
        obtain ⟨shape, hinner, hplain⟩ := hg.allows hshape
        have hadmits : ((u.graph.shape? core).any Graph.admitsNull) = false := by
          rw [← hlike.shapes core, hinner, Option.any_some, hplain]
        have hadd : u.graph.addNullable core hint =
            u.graph.share (.nullable core) (.nullable core) (some hint) := by
          unfold Graph.addNullable
          rw [hadmits]
          rfl
        have hkey : Key.isMap (.nullable core) = false := rfl
        have hfinds := finds_shape (E := E) hinterned hlike hshape hkey (Key.same_refl _)
          (.nullable core) (some hint)
        apply alike_build
        rw [hadd]
        exact hfinds.ok rfl
    dsimp only
    split
    . next member =>
      rw [pure_bind, hcore.eq_of_single hg hfound]
      exact hwith t hlike
    . next hmany =>
      rcases hcore with ⟨hone, -⟩ | ⟨members, hshape, hmembers⟩
      . exact absurd hone (hmany core)
      . have hkey : Key.isMap (.union members) = false := rfl
        have hsame : Key.same (.union members) (.union found) = true := sameElements_iff.2 hmembers
        apply Alike.next (finds_shape hinterned hlike hshape hkey hsame _ _)
        rintro core' u ⟨rfl, hlike⟩
        exact hwith u hlike

theorem Packs.eq (h : Packs g found withNull r) (h' : Packs g found withNull r') (hg : g.Sound)
    (hinterned : g.Interned) (hfound : Ascends g.rank? 0 Shape.ranks found) : r = r' := by
  -- Packing the members finds the type that is there.
  have hfinds {r : Handle} (h : Packs g found withNull r) :=
    finds_package (E := fun _ _ => False) (t := { State.start .null with graph := g }) hg hinterned
      (.refl g) hfound h (.inferred "")
  rcases hrun : (package found withNull (.inferred "")).run { State.start .null with graph := g }
    with ⟨fault | k, t⟩
  . cases (hfinds h).error hrun
  . exact ((hfinds h).ok hrun).1.symm.trans ((hfinds h').ok hrun).1

end Unification

namespace Graph

variable {g : Graph} {inner inner' : Set Handle → Handle → Prop} {types : Set Handle}
  {r r' k k' : Handle} {kind : Kind}

theorem Gathered.eq_of_offers (h : g.Gathered inner types r) (h' : g.Gathered inner' types r')
    (hg : g.Sound) (hinterned : g.Interned)
    (hunique : ∀ {types k k'}, inner types k → inner' types k' → g.Has k → g.Has k' → k = k')
    (hoffers : g.Offers r k) (hoffers' : g.Offers r' k') (hkind : g.kind? k = some kind)
    (hkind' : g.kind? k' = some kind) (hnull : kind ≠ .primitive .null) : k = k' := by
  cases kind with
  | primitive primitive =>
    have hne : primitive ≠ .null := fun heq => hnull (heq ▸ rfl)
    exact hinterned.eq_of_same (Key.same_refl (.primitive primitive)) rfl
      ((shape?_of_kind? hkind).resolve_left hne) ((shape?_of_kind? hkind').resolve_left hne)
  | string =>
    exact hinterned.eq_of_same (Key.same_refl .string) rfl (shape?_of_kind? hkind)
      (shape?_of_kind? hkind')
  | enum =>
    obtain ⟨cases, hshape⟩ := shape?_of_kind? hkind
    obtain ⟨cases', hshape'⟩ := shape?_of_kind? hkind'
    have hsame : Key.same (.enum cases) (.enum cases') = true := by
      apply sameElements_iff.2
      exact fun text => (h.cases hoffers hshape text).trans (h'.cases hoffers' hshape' text).symm
    exact hinterned.eq_of_same hsame rfl hshape hshape'
  | array =>
    obtain ⟨items, hitems⟩ := exists_itemsOf? hkind
    obtain ⟨items', hitems'⟩ := exists_itemsOf? hkind'
    obtain rfl : items = items' := hunique ((h.fits hoffers).items hitems)
      ((h'.fits hoffers').items hitems') (hg.has_of_itemsOf? hitems) (hg.has_of_itemsOf? hitems')
    exact hinterned.eq_of_same (Key.same_refl (.array items)) rfl (itemsOf?_eq_some.1 hitems)
      (itemsOf?_eq_some.1 hitems')
  | record =>
    obtain ⟨l, hl, hlkind⟩ := (h.kinds _).1 ⟨k, hoffers, hkind⟩
    exact ((h.fits hoffers).record hkind hl hlkind).symm.trans
      ((h'.fits hoffers').record hkind' hl hlkind)
  | map =>
    have hfew : ∀ {k}, (∀ l, g.Among types l → g.kind? l = some .map → l = k) →
        ¬g.ManyMaps types := by
      rintro k hlone ⟨l, l', hl, hl', hlkind, hlkind', hne⟩
      exact hne ((hlone l hl hlkind).trans (hlone l' hl' hlkind').symm)
    rcases (h.fits hoffers).map hkind with hlone | ⟨hmany, values, hmem, hvalues⟩
    . rcases (h'.fits hoffers').map hkind' with hlone' | ⟨hmany', -⟩
      . obtain ⟨l, hl, hlkind⟩ := (h.kinds _).1 ⟨k, hoffers, hkind⟩
        exact (hlone l hl hlkind).symm.trans (hlone' l hl hlkind)
      . exact absurd hmany' (hfew hlone)
    . rcases (h'.fits hoffers').map hkind' with hlone' | ⟨-, values', hmem', hvalues'⟩
      . exact absurd hmany (hfew hlone')
      . obtain rfl : values = values' := hunique hvalues hvalues'
          (hg.has_of_valuesOf? (hg.valuesOf?_of_shared hmem))
          (hg.has_of_valuesOf? (hg.valuesOf?_of_shared hmem'))
        exact hinterned.single hmem hmem' (Key.same_refl _)

theorem Gathered.offers_of_offers (h : g.Gathered inner types r) (h' : g.Gathered inner' types r')
    (hg : g.Sound) (hinterned : g.Interned)
    (hunique : ∀ {types k k'}, inner types k → inner' types k' → g.Has k → g.Has k' → k = k')
    (hoffers : g.Offers r k) {rank : Nat} (hrank : g.rank? k = some rank) : g.Offers r' k := by
  obtain ⟨kind, hkind, hnull⟩ := exists_kind_of_rank? hrank
  obtain ⟨k', hoffers', hkind'⟩ := (h'.kinds kind).2 ((h.kinds kind).1 ⟨k, hoffers, hkind⟩)
  rwa [h.eq_of_offers h' hg hinterned hunique hoffers hoffers' hkind hkind' hnull]

theorem Joint.unique (h : g.Joint types r) (h' : g.Joint types r') (hg : g.Sound)
    (hinterned : g.Interned) (hhas : g.Has r) (hhas' : g.Has r') : r = r' := by
  induction h generalizing r' with
  | @intro inner types r hjoint h ih =>
    rw [joint_iff] at h'
    have hunique : ∀ {types k k'}, inner types k → g.Joint types k' → g.Has k → g.Has k' →
        k = k' := fun hk hk' hhas hhas' => ih _ _ hk hk' hhas hhas'
    cases h with
    | any hany hshape =>
      cases h' with
      | any _ hshape' =>
        exact hinterned.eq_of_same (Key.same_refl (.primitive .any)) rfl hshape hshape'
      | gathered hnone _ =>
        obtain ⟨k, hk, hkind⟩ := hany
        exact absurd hkind (hnone k hk)
    | gathered hnone h =>
      cases h' with
      | any hany _ =>
        obtain ⟨k, hk, hkind⟩ := hany
        exact absurd hkind (hnone k hk)
      | gathered _ h' =>
        have hplain {inner : Set Handle → Handle → Prop} {r : Handle}
            (h : g.Gathered inner types r) : g.shape? r ≠ some (.primitive .any) := by
          intro hshape
          obtain ⟨k, hk, hkind⟩ := (h.kinds _).1 ⟨r, .itself, kind?_of_shape? hshape⟩
          exact hnone k hk hkind
        obtain ⟨found, withNull, hascends, hpacks⟩ := hg.exists_packs hhas (hplain h)
        refine hpacks.eq (packs_of_mem_iff hg hhas' (hplain h') hascends ?_ ?_) hg hinterned hascends
        . intro k
          rw [hpacks.mem_iff hg hascends]
          apply and_congr_left
          rintro ⟨rank, hrank⟩
          constructor
          . exact fun hoffers => h.offers_of_offers h' hg hinterned hunique hoffers hrank
          . exact fun hoffers => h'.offers_of_offers h hg hinterned
              (fun hk hk' hhas hhas' => (hunique hk' hk hhas' hhas).symm) hoffers hrank
        . intro hsome
          rw [h'.kinds, ← h.kinds,
            hpacks.shows_null_iff hg fun k hk => ((hpacks.mem_iff hg hascends).1 hk).2]
          exact (or_iff_left hsome).symm

end Graph

end SchemaGraph
