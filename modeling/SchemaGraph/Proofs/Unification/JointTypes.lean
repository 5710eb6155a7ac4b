import Mathlib.Data.Set.Basic
import SchemaGraph.Proofs.Graph.Chains
import SchemaGraph.Proofs.Graph.Interning

/-!
This module contains joint types: what the unification of a set of types is in the end, said of one
graph and without an order. The joint type offers what the types offer, arrays and maps with joint
types inside. It stays the joint type when the graph grows, a type is the joint type of itself, and
joint types may be grouped.
-/

namespace SchemaGraph

namespace Graph

def Among (g : Graph) (types : Set Handle) (k : Handle) : Prop :=
  ∃ h ∈ types, g.Offers h k

def itemsOf? (g : Graph) (h : Handle) : Option Handle :=
  match g.shape? h with
  | some (.array items) => some items
  | _ => none

def Contents (g : Graph) (content : Handle → Option Handle) (types : Set Handle) : Set Handle :=
  fun inside => ∃ k, g.Among types k ∧ content k = some inside

def ManyMaps (g : Graph) (types : Set Handle) : Prop :=
  ∃ k k', g.Among types k ∧ g.Among types k' ∧ g.kind? k = some .map ∧ g.kind? k' = some .map ∧
    k ≠ k'

/--
The alternative `k` stands for the alternatives of its kind that some types have. A record or a map
that is the only one stays as it is. Of several maps there is the shared map. The types inside
arrays and maps are joined by `inner`.
-/
structure Fits (g : Graph) (inner : Set Handle → Handle → Prop) (types : Set Handle)
    (k : Handle) : Prop where
  items {items} : g.itemsOf? k = some items → inner (g.Contents g.itemsOf? types) items
  record {k'} : g.kind? k = some .record → g.Among types k' → g.kind? k' = some .record → k' = k
  map : g.kind? k = some .map →
    (∀ k', g.Among types k' → g.kind? k' = some .map → k' = k) ∨ g.ManyMaps types ∧
      ∃ values, (.map values, k) ∈ g.shared ∧ inner (g.Contents g.valuesOf? types) values

structure Gathered (g : Graph) (inner : Set Handle → Handle → Prop) (types : Set Handle)
    (r : Handle) : Prop where
  kinds kind : g.Shows r kind ↔ ∃ k, g.Among types k ∧ g.kind? k = some kind
  cases {k cases} : g.Offers r k → g.shape? k = some (.enum cases) → ∀ text, text ∈ cases ↔
    ∃ k' cases', g.Among types k' ∧ g.shape? k' = some (.enum cases') ∧ text ∈ cases'
  fits {k} : g.Offers r k → g.Fits inner types k

/--
The type `r` is the joint type of the given types, as far as they are joined by `inner` inside. The
type `any` absorbs all others.
-/
inductive JointBy (g : Graph) (inner : Set Handle → Handle → Prop) (types : Set Handle)
    (r : Handle) : Prop where
  | any (hany : ∃ k, g.Among types k ∧ g.kind? k = some (.primitive .any))
    (hshape : g.shape? r = some (.primitive .any))
  | gathered (hnone : ∀ k, g.Among types k → g.kind? k ≠ some (.primitive .any))
    (h : g.Gathered inner types r)

inductive Joint (g : Graph) : Set Handle → Handle → Prop where
  | intro {inner : Set Handle → Handle → Prop} {types : Set Handle} {r : Handle}
    (hinner : ∀ types r, inner types r → Joint g types r) (h : g.JointBy inner types r) :
    Joint g types r

structure Extends (g g' : Graph) : Prop where
  grows : g.Grows g'
  shared : g.shared ⊆ g'.shared

variable {g g' : Graph} {inner inner' : Set Handle → Handle → Prop} {types others : Set Handle}
  {h k k' r u : Handle} {shape : Shape} {kind : Kind}

theorem Fits.imp (h : g.Fits inner types k)
    (himp : ∀ types r, inner types r → inner' types r) : g.Fits inner' types k where
  items hitems := himp _ _ (h.items hitems)
  record := h.record
  map hkind := (h.map hkind).imp_right fun ⟨hmany, values, hmem, hvalues⟩ =>
    ⟨hmany, values, hmem, himp _ _ hvalues⟩

theorem Gathered.imp (h : g.Gathered inner types r)
    (himp : ∀ types r, inner types r → inner' types r) : g.Gathered inner' types r where
  kinds := h.kinds
  cases := h.cases
  fits hoffers := (h.fits hoffers).imp himp

theorem JointBy.imp (h : g.JointBy inner types r)
    (himp : ∀ types r, inner types r → inner' types r) : g.JointBy inner' types r := by
  cases h with
  | any hany hshape => exact .any hany hshape
  | gathered hnone h => exact .gathered hnone (h.imp himp)

theorem joint_iff : g.Joint types r ↔ g.JointBy g.Joint types r := by
  constructor
  . rintro ⟨hinner, h⟩
    exact h.imp hinner
  . exact fun h => .intro (fun _ _ => id) h

section Alternatives

theorem among_singleton : g.Among {h} k ↔ g.Offers h k := by
  simp [Among]

theorem among_union : g.Among (types ∪ others) k ↔ g.Among types k ∨ g.Among others k := by
  simp [Among, or_and_right, exists_or]

theorem Sound.has_of_among (hg : g.Sound) (hhas : ∀ h ∈ types, g.Has h) (hk : g.Among types k) :
    g.Has k := by
  obtain ⟨h, hmem, hoffers⟩ := hk
  exact hg.has_of_reaches (hhas h hmem) hoffers.reaches

theorem contents_union {content : Handle → Option Handle} :
    g.Contents content (types ∪ others) = g.Contents content types ∪ g.Contents content others := by
  ext inside
  change (∃ k, _) ↔ (∃ k, _) ∨ ∃ k, _
  simp only [among_union, or_and_right, exists_or]

theorem Offers.index_le (hoffers : g.Offers h k) (hg : g.Sound) : k.index ≤ h.index := by
  induction hoffers with
  | itself => exact Nat.le_refl _
  | member hshape hmem _ ih => exact Nat.le_trans ih (Nat.le_of_lt (hg.descends hshape _ hmem))
  | inner hshape _ ih =>
    exact Nat.le_trans ih (Nat.le_of_lt (hg.descends hshape _ (List.mem_singleton_self _)))

theorem itemsOf?_eq_some {items : Handle} :
    g.itemsOf? k = some items ↔ g.shape? k = some (.array items) := by
  unfold itemsOf?
  split
  . next hshape => rw [hshape, Option.some.injEq, Option.some.injEq, Shape.array.injEq]
  . next hshape => exact ⟨nofun, fun harray => absurd harray (hshape items)⟩

theorem kind?_of_itemsOf? {items : Handle} (hitems : g.itemsOf? k = some items) :
    g.kind? k = some .array :=
  kind?_of_shape? (itemsOf?_eq_some.1 hitems)

theorem exists_itemsOf? (hkind : g.kind? k = some .array) : ∃ items, g.itemsOf? k = some items := by
  obtain ⟨items, hshape⟩ := shape?_of_kind? hkind
  exact ⟨items, itemsOf?_eq_some.2 hshape⟩

theorem kind?_of_valuesOf? {values : Handle} (hvalues : g.valuesOf? k = some values) :
    g.kind? k = some .map := by
  unfold valuesOf? at hvalues
  split at hvalues
  . next hshape => exact kind?_of_shape? hshape
  . next hshape => exact kind?_of_shape? hshape
  . cases hvalues

theorem exists_valuesOf?_of_kind? (hkind : g.kind? k = some .map) :
    ∃ values, g.valuesOf? k = some values := by
  obtain ⟨slot, hshape⟩ := shape?_of_kind? hkind
  exact exists_valuesOf? hshape

theorem Sound.valuesOf?_of_shared (hg : g.Sound) {values : Handle}
    (hmem : (.map values, k) ∈ g.shared) : g.valuesOf? k = some values := by
  unfold valuesOf?
  rw [hg.shared hmem]
  rfl

theorem Sound.shape?_of_offers_any (hg : g.Sound) (hoffers : g.Offers h k)
    (hkind : g.kind? k = some (.primitive .any)) : g.shape? h = some (.primitive .any) := by
  have hrank : g.rank? k = none := by
    rw [rank?_eq_bind, hkind]
    rfl
  cases hoffers with
  | itself => exact (shape?_of_kind? hkind).resolve_left nofun
  | member hshape hmem hoffers =>
    obtain ⟨rank, hmember, -⟩ := (hg.allows hshape).2.exists_rank hmem
    rw [(offers_iff_of_rank? hmember).1 hoffers] at hrank
    cases hrank.symm.trans hmember
  | inner hshape hoffers =>
    obtain ⟨shape, hinner, hnull⟩ := hg.allows hshape
    obtain ⟨rank, hsome⟩ := hg.exists_rank_of_offers hinner hnull hoffers hkind
    cases hrank.symm.trans hsome

end Alternatives

theorem fits_of_kind? (hother : ∀ kind ∈ [.record, .map, .array], g.kind? k ≠ some kind) :
    g.Fits inner types k where
  items hitems := absurd (kind?_of_itemsOf? hitems) (hother _ (by decide))
  record hkind := absurd hkind (hother _ (by decide))
  map hkind := absurd hkind (hother _ (by decide))

section Self

theorem contents_eq_singleton {content : Handle → Option Handle} {inside : Handle}
    (hkind : ∀ {k inside}, content k = some inside → g.kind? k = some kind)
    (hlone : ∀ k', g.Among types k' → g.kind? k' = some kind → k' = k) (hk : g.Among types k)
    (hinside : content k = some inside) : g.Contents content types = {inside} := by
  ext inside'
  change (∃ k', g.Among types k' ∧ _) ↔ inside' = inside
  constructor
  . rintro ⟨k', hk', hinside'⟩
    obtain rfl := hlone k' hk' (hkind hinside')
    cases hinside.symm.trans hinside'
    rfl
  . rintro rfl
    exact ⟨k, hk, hinside⟩

theorem Sound.lone_singleton (hg : g.Sound) (hoffers : g.Offers h k)
    (hkind : g.kind? k = some kind) : ∀ k', g.Among {h} k' → g.kind? k' = some kind → k' = k :=
  fun _ hk' hkind' => hg.offers_unique (among_singleton.1 hk') hoffers hkind' hkind

theorem Sound.contents_singleton (hg : g.Sound) {content : Handle → Option Handle} {inside : Handle}
    (hkind : ∀ {k inside}, content k = some inside → g.kind? k = some kind)
    (hoffers : g.Offers h k) (hinside : content k = some inside) :
    g.Contents content {h} = {inside} :=
  contents_eq_singleton hkind (hg.lone_singleton hoffers (hkind hinside))
    (among_singleton.2 hoffers) hinside

theorem Sound.jointBy_self (hg : g.Sound)
    (hinner : ∀ items : Handle, items.index < h.index → inner {items} items) :
    g.JointBy inner {h} h := by
  by_cases hany : ∃ k, g.Offers h k ∧ g.kind? k = some (.primitive .any)
  . obtain ⟨k, hoffers, hkind⟩ := hany
    exact .any ⟨k, among_singleton.2 hoffers, hkind⟩ (hg.shape?_of_offers_any hoffers hkind)
  . refine .gathered (fun k hk hkind => hany ⟨k, among_singleton.1 hk, hkind⟩) ?_
    constructor
    . intro kind
      simp only [among_singleton]
      exact Iff.rfl
    . intro k cases hoffers hshape text
      simp only [among_singleton]
      constructor
      . exact fun htext => ⟨k, cases, hoffers, hshape, htext⟩
      . rintro ⟨k', cases', hoffers', hshape', htext⟩
        obtain rfl := hg.offers_unique hoffers hoffers' (kind?_of_shape? hshape)
          (kind?_of_shape? hshape')
        cases hshape.symm.trans hshape'
        exact htext
    . intro k hoffers
      refine ⟨?_, ?_, ?_⟩
      . intro items hitems
        rw [hg.contents_singleton kind?_of_itemsOf? hoffers hitems]
        apply hinner
        have hlt := hg.descends (itemsOf?_eq_some.1 hitems) items (List.mem_singleton_self _)
        exact Nat.lt_of_lt_of_le hlt (hoffers.index_le hg)
      . exact fun hkind => hg.lone_singleton hoffers hkind _
      . exact fun hkind => Or.inl (hg.lone_singleton hoffers hkind)

theorem Sound.joint_self (hg : g.Sound) (h : Handle) : g.Joint {h} h := by
  obtain ⟨index⟩ := h
  induction index using Nat.strong_induction_on with
  | _ index ih => exact joint_iff.2 (hg.jointBy_self fun items hlt => ih items.index hlt)

end Self

section Grouping

theorem contents_eq_empty {content : Handle → Option Handle}
    (hkind : ∀ {k inside}, content k = some inside → g.kind? k = some kind)
    (hnone : ∀ k, g.Among types k → g.kind? k ≠ some kind) : g.Contents content types = ∅ := by
  ext inside
  constructor
  . rintro ⟨k, hk, hinside⟩
    exact absurd (hkind hinside) (hnone k hk)
  . exact fun hmem => nomatch hmem

theorem Gathered.exists_offers (h : g.Gathered inner types u) (hk : g.Among types k)
    (hkind : g.kind? k = some kind) : ∃ k, g.Offers u k ∧ g.kind? k = some kind :=
  (h.kinds kind).2 ⟨k, hk, hkind⟩

theorem Gathered.exists_among (h : g.Gathered inner types u) (hoffers : g.Offers u k)
    (hkind : g.kind? k = some kind) : ∃ k, g.Among types k ∧ g.kind? k = some kind :=
  (h.kinds kind).1 ⟨k, hoffers, hkind⟩

theorem Gathered.not_among (h : g.Gathered inner types u)
    (hnone : ¬∃ k, g.Offers u k ∧ g.kind? k = some kind) :
    ∀ k, g.Among types k → g.kind? k ≠ some kind :=
  fun _ hk hkind => hnone (h.exists_offers hk hkind)

theorem Gathered.joint_contents (h : g.Gathered inner types u) (hg : g.Sound)
    {content : Handle → Option Handle}
    (hkind : ∀ {k inside}, content k = some inside → g.kind? k = some kind)
    (hcontent : ∀ {k}, g.kind? k = some kind → ∃ inside, content k = some inside)
    (hjoint : ∀ {k inside}, g.Offers u k → content k = some inside → ∀ rest r,
      g.Joint ({inside} ∪ rest) r → g.Joint (g.Contents content types ∪ rest) r)
    (hr : g.Joint (g.Contents content ({u} ∪ others)) r) :
    g.Joint (g.Contents content (types ∪ others)) r := by
  rw [contents_union] at hr ⊢
  by_cases hsome : ∃ k, g.Offers u k ∧ g.kind? k = some kind
  . obtain ⟨k, hoffers, hk⟩ := hsome
    obtain ⟨inside, hinside⟩ := hcontent hk
    rw [hg.contents_singleton hkind hoffers hinside] at hr
    exact hjoint hoffers hinside _ _ hr
  . have hnone : ∀ k, g.Among {u} k → g.kind? k ≠ some kind :=
      fun k hk hkind => hsome ⟨k, among_singleton.1 hk, hkind⟩
    rw [contents_eq_empty hkind hnone] at hr
    rw [contents_eq_empty hkind (h.not_among hsome)]
    exact hr

theorem Gathered.exists_union (h : g.Gathered inner types u) :
    (∃ k, g.Among ({u} ∪ others) k ∧ g.kind? k = some kind) ↔
      ∃ k, g.Among (types ∪ others) k ∧ g.kind? k = some kind := by
  simp only [among_union, among_singleton, or_and_right, exists_or]
  exact or_congr_left (h.kinds kind)

theorem Gathered.exists_case_union (h : g.Gathered inner types u) {text : String} :
    (∃ k cases, g.Among ({u} ∪ others) k ∧ g.shape? k = some (.enum cases) ∧ text ∈ cases) ↔
      ∃ k cases, g.Among (types ∪ others) k ∧ g.shape? k = some (.enum cases) ∧ text ∈ cases := by
  simp only [among_union, among_singleton, or_and_right, exists_or]
  apply or_congr_left
  constructor
  . rintro ⟨k, cases, hoffers, hshape, htext⟩
    exact (h.cases hoffers hshape text).1 htext
  . rintro ⟨k, cases, hk, hshape, htext⟩
    obtain ⟨k', hoffers, hkind⟩ := h.exists_offers hk (kind?_of_shape? hshape)
    obtain ⟨cases', hshape'⟩ := shape?_of_kind? hkind
    exact ⟨k', cases', hoffers, hshape',
      (h.cases hoffers hshape' text).2 ⟨k, cases, hk, hshape, htext⟩⟩

theorem Gathered.lone_union (h : g.Gathered inner types u)
    (hlone : ∀ k', g.Among ({u} ∪ others) k' → g.kind? k' = some kind → k' = k)
    (hone : ∀ {k k'}, g.Offers u k → g.kind? k = some kind → g.Among types k' →
      g.kind? k' = some kind → k' = k) :
    ∀ k', g.Among (types ∪ others) k' → g.kind? k' = some kind → k' = k := by
  intro k' hk' hkind'
  rcases among_union.1 hk' with hk' | hk'
  . obtain ⟨l, hoffers, hkind⟩ := h.exists_offers hk' hkind'
    rw [hone hoffers hkind hk' hkind']
    exact hlone l (among_union.2 (Or.inl (among_singleton.2 hoffers))) hkind
  . exact hlone k' (among_union.2 (Or.inr hk')) hkind'

theorem Gathered.joint_values (h : g.Gathered inner types u) (hg : g.Sound)
    (hinner : ∀ {types r}, inner types r → ∀ rest r', g.Joint ({r} ∪ rest) r' →
      g.Joint (types ∪ rest) r')
    (hr : g.Joint (g.Contents g.valuesOf? ({u} ∪ others)) r) :
    g.Joint (g.Contents g.valuesOf? (types ∪ others)) r := by
  apply h.joint_contents hg kind?_of_valuesOf? exists_valuesOf?_of_kind? _ hr
  intro k values hoffers hvalues rest r hr
  rcases (h.fits hoffers).map (kind?_of_valuesOf? hvalues) with hlone | ⟨-, values', hmem, hvalues'⟩
  . obtain ⟨k', hk', hkind'⟩ := h.exists_among hoffers (kind?_of_valuesOf? hvalues)
    obtain rfl := hlone k' hk' hkind'
    rwa [contents_eq_singleton kind?_of_valuesOf? hlone hk' hvalues]
  . cases hvalues.symm.trans (hg.valuesOf?_of_shared hmem)
    exact hinner hvalues' rest r hr

theorem Gathered.manyMaps_union (h : g.Gathered inner types u)
    (hmany : g.ManyMaps ({u} ∪ others)) : g.ManyMaps (types ∪ others) := by
  by_contra hfew
  have hlone : ∀ {k k'}, g.Among (types ∪ others) k → g.Among (types ∪ others) k' →
      g.kind? k = some .map → g.kind? k' = some .map → k = k' := by
    intro k k' hk hk' hkind hkind'
    by_contra hne
    exact hfew ⟨k, k', hk, hk', hkind, hkind', hne⟩
  -- The map of the joint type is the only one of the types then.
  have hfrom : ∀ {k}, g.Among ({u} ∪ others) k → g.kind? k = some .map →
      g.Among (types ∪ others) k := by
    intro k hk hkind
    rcases among_union.1 hk with hk | hk
    . have hoffers := among_singleton.1 hk
      obtain ⟨k', hk', hkind'⟩ := h.exists_among hoffers hkind
      rcases (h.fits hoffers).map hkind with hone | ⟨⟨l, l', hl, hl', hlkind, hlkind', hne⟩, -⟩
      . obtain rfl := hone k' hk' hkind'
        exact among_union.2 (Or.inl hk')
      . exact absurd (hlone (among_union.2 (Or.inl hl)) (among_union.2 (Or.inl hl')) hlkind hlkind')
          hne
    . exact among_union.2 (Or.inr hk)
  obtain ⟨k, k', hk, hk', hkind, hkind', hne⟩ := hmany
  exact hne (hlone (hfrom hk hkind) (hfrom hk' hkind') hkind hkind')

theorem Gathered.map_union (h : g.Gathered inner types u) (hg : g.Sound)
    (hinner : ∀ {types r}, inner types r → ∀ rest r', g.Joint ({r} ∪ rest) r' →
      g.Joint (types ∪ rest) r')
    (hr : g.Gathered g.Joint ({u} ∪ others) r) (hoffers : g.Offers r k)
    (hkind : g.kind? k = some .map) :
    (∀ k', g.Among (types ∪ others) k' → g.kind? k' = some .map → k' = k) ∨
      g.ManyMaps (types ∪ others) ∧ ∃ values, (.map values, k) ∈ g.shared ∧
        g.Joint (g.Contents g.valuesOf? (types ∪ others)) values := by
  rcases (hr.fits hoffers).map hkind with hlone | ⟨hmany, values, hmem, hvalues⟩
  . by_cases hjoined : ∃ l l', g.Offers u l ∧ g.kind? l = some .map ∧ g.Among types l' ∧
        g.kind? l' = some .map ∧ l' ≠ l
    . -- The joint type has a map that has been made of several.
      obtain ⟨l, l', hl, hlkind, hl', hlkind', hne⟩ := hjoined
      have hlamong : g.Among ({u} ∪ others) l :=
        among_union.2 (Or.inl (among_singleton.2 hl))
      obtain rfl := hlone l hlamong hlkind
      rcases (h.fits hl).map hlkind with hsingle | ⟨⟨m, m', hm, hm', hrest⟩, values, hmem, -⟩
      . exact absurd (hsingle l' hl' hlkind') hne
      . refine Or.inr ⟨⟨m, m', among_union.2 (Or.inl hm), among_union.2 (Or.inl hm'), hrest⟩,
          values, hmem, h.joint_values hg hinner ?_⟩
        rw [contents_eq_singleton kind?_of_valuesOf? hlone hlamong (hg.valuesOf?_of_shared hmem)]
        exact hg.joint_self values
    . refine Or.inl (h.lone_union hlone fun {l l'} hl hlkind hl' hlkind' => ?_)
      by_contra hne
      exact hjoined ⟨l, l', hl, hlkind, hl', hlkind', hne⟩
  . exact Or.inr ⟨h.manyMaps_union hmany, values, hmem, h.joint_values hg hinner hvalues⟩

theorem Joint.union (hu : g.Joint types u) (hg : g.Sound) (hr : g.Joint ({u} ∪ others) r) :
    g.Joint (types ∪ others) r := by
  induction hu generalizing others r with
  | @intro inner types u hjoint h ih =>
    have hinner : ∀ {types r}, inner types r → ∀ rest r', g.Joint ({r} ∪ rest) r' →
        g.Joint (types ∪ rest) r' := fun h rest r' hr => ih _ _ h hr
    rw [joint_iff] at hr ⊢
    cases h with
    | any hany hshape =>
      have hanyu : g.Among ({u} ∪ others) u :=
        among_union.2 (Or.inl (among_singleton.2 .itself))
      cases hr with
      | any _ hrshape =>
        obtain ⟨k, hk, hkind⟩ := hany
        exact .any ⟨k, among_union.2 (Or.inl hk), hkind⟩ hrshape
      | gathered hnone _ => exact absurd (kind?_of_shape? hshape) (hnone u hanyu)
    | gathered hnone h =>
      cases hr with
      | any hany hrshape => exact .any (h.exists_union.1 hany) hrshape
      | gathered hrnone hr =>
        refine .gathered ?_ ?_
        . intro k hk hkind
          obtain ⟨l, hl, hlkind⟩ := h.exists_union.2 ⟨k, hk, hkind⟩
          exact hrnone l hl hlkind
        . refine ⟨?_, ?_, fun {k} hoffers => ⟨?_, ?_, ?_⟩⟩
          . exact fun kind => (hr.kinds kind).trans h.exists_union
          . exact fun hoffers hshape text => (hr.cases hoffers hshape text).trans h.exists_case_union
          . intro items hitems
            apply h.joint_contents hg kind?_of_itemsOf? exists_itemsOf? _
              ((hr.fits hoffers).items hitems)
            exact fun hoffers hitems => hinner ((h.fits hoffers).items hitems)
          . exact fun hkind => h.lone_union (fun _ => (hr.fits hoffers).record hkind)
              (fun hoffers => (h.fits hoffers).record) _
          . exact fun hkind => h.map_union hg hinner hr hoffers hkind

end Grouping

section Growth

theorem Extends.refl (g : Graph) : g.Extends g :=
  ⟨.refl g, List.Subset.refl _⟩

theorem Extends.trans {g'' : Graph} (h : g.Extends g') (h' : g'.Extends g'') : g.Extends g'' :=
  ⟨h.grows.trans h'.grows, List.Subset.trans h.shared h'.shared⟩

theorem extends_share (g : Graph) (key : Key) (shape : Shape) (hint : Option NameHint) :
    g.Extends (g.share key shape hint).2 := by
  refine ⟨grows_share g key shape hint, ?_⟩
  rcases findsOrMakes_share g key shape hint with ⟨-, -, hshared, -⟩ | ⟨-, -, hshared, -⟩
  . rw [hshared]
    exact List.Subset.refl _
  . rw [hshared]
    exact List.subset_cons_self ..

theorem Grows.kind?_eq (hg : g.Grows g') (hhas : g.Has h) : g'.kind? h = g.kind? h := by
  unfold kind?
  rw [hg.shape?_eq hhas]

theorem Grows.itemsOf?_eq (hg : g.Grows g') (hhas : g.Has h) : g'.itemsOf? h = g.itemsOf? h := by
  unfold itemsOf?
  rw [hg.shape?_eq hhas]

theorem Grows.valuesOf?_eq (hg : g.Grows g') (hhas : g.Has h) :
    g'.valuesOf? h = g.valuesOf? h := by
  unfold Graph.valuesOf?
  rw [hg.shape?_eq hhas]

theorem Grows.among_iff (hg : g.Grows g') (hsound : g.Sound) (hhas : ∀ h ∈ types, g.Has h) :
    g'.Among types k ↔ g.Among types k :=
  exists_congr fun h => and_congr_right fun hmem => hg.offers_iff hsound (hhas h hmem)

theorem Grows.exists_among_iff {P P' : Handle → Prop} (hg : g.Grows g') (hsound : g.Sound)
    (hhas : ∀ h ∈ types, g.Has h) (hP : ∀ k, g.Has k → (P' k ↔ P k)) :
    (∃ k, g'.Among types k ∧ P' k) ↔ ∃ k, g.Among types k ∧ P k := by
  apply exists_congr
  intro k
  rw [hg.among_iff hsound hhas]
  exact and_congr_right fun hk => hP k (hsound.has_of_among hhas hk)

theorem Grows.shows_iff (hg : g.Grows g') (hsound : g.Sound) (hhas : g.Has h) :
    g'.Shows h kind ↔ g.Shows h kind := by
  have hiff : (∃ k, g'.Among {h} k ∧ g'.kind? k = some kind) ↔
      ∃ k, g.Among {h} k ∧ g.kind? k = some kind :=
    hg.exists_among_iff hsound (by simpa using hhas) fun k hk => by rw [hg.kind?_eq hk]
  simp only [among_singleton] at hiff
  exact hiff

theorem Grows.contents_eq {content content' : Handle → Option Handle} (hg : g.Grows g')
    (hsound : g.Sound) (hhas : ∀ h ∈ types, g.Has h)
    (hcontent : ∀ k, g.Has k → content' k = content k) :
    g'.Contents content' types = g.Contents content types := by
  ext inside
  exact hg.exists_among_iff hsound hhas fun k hk => by rw [hcontent k hk]

theorem has_of_mem_contents {content : Handle → Option Handle}
    (hcontent : ∀ {k inside}, content k = some inside → g.Has inside) :
    ∀ inside ∈ g.Contents content types, g.Has inside := by
  rintro inside ⟨k, -, hinside⟩
  exact hcontent hinside

theorem Sound.has_of_itemsOf? (hg : g.Sound) {items : Handle} (hitems : g.itemsOf? k = some items) :
    g.Has items :=
  hg.inside (itemsOf?_eq_some.1 hitems) items (List.mem_singleton_self _)

theorem Grows.manyMaps_iff (hg : g.Grows g') (hsound : g.Sound) (hhas : ∀ h ∈ types, g.Has h) :
    g'.ManyMaps types ↔ g.ManyMaps types := by
  apply exists_congr
  intro k
  apply exists_congr
  intro k'
  rw [hg.among_iff hsound hhas, hg.among_iff hsound hhas]
  apply and_congr_right
  intro hk
  apply and_congr_right
  intro hk'
  rw [hg.kind?_eq (hsound.has_of_among hhas hk), hg.kind?_eq (hsound.has_of_among hhas hk')]

theorem Fits.extend (h : g.Fits inner types k) (hg : g.Extends g') (hsound : g.Sound)
    (hhas : ∀ h ∈ types, g.Has h) (hk : g.Has k)
    (himp : ∀ types r, inner types r → (∀ h ∈ types, g.Has h) → g.Has r → inner' types r) :
    g'.Fits inner' types k := by
  have hgrows := hg.grows
  have hlone : ∀ {kind}, (∀ k', g.Among types k' → g.kind? k' = some kind → k' = k) →
      ∀ k', g'.Among types k' → g'.kind? k' = some kind → k' = k := by
    intro kind hlone k' hk' hkind'
    rw [hgrows.among_iff hsound hhas] at hk'
    rw [hgrows.kind?_eq (hsound.has_of_among hhas hk')] at hkind'
    exact hlone k' hk' hkind'
  refine ⟨?_, ?_, ?_⟩
  . intro items hitems
    rw [hgrows.itemsOf?_eq hk] at hitems
    rw [hgrows.contents_eq hsound hhas fun k hk => hgrows.itemsOf?_eq hk]
    exact himp _ _ (h.items hitems) (has_of_mem_contents hsound.has_of_itemsOf?)
      (hsound.has_of_itemsOf? hitems)
  . intro k' hkind
    rw [hgrows.kind?_eq hk] at hkind
    exact hlone (fun _ => h.record hkind) k'
  . intro hkind
    rw [hgrows.kind?_eq hk] at hkind
    rw [hgrows.manyMaps_iff hsound hhas,
      hgrows.contents_eq hsound hhas fun k hk => hgrows.valuesOf?_eq hk]
    rcases h.map hkind with hsole | ⟨hmany, values, hmem, hvalues⟩
    . exact Or.inl (hlone hsole)
    . have hhasvalues : g.Has values :=
        hsound.has_of_valuesOf? (hsound.valuesOf?_of_shared hmem)
      exact Or.inr ⟨hmany, values, hg.shared hmem,
        himp _ _ hvalues (has_of_mem_contents hsound.has_of_valuesOf?) hhasvalues⟩

theorem Joint.extend (h : g.Joint types r) (hg : g.Extends g') (hsound : g.Sound)
    (hhas : ∀ h ∈ types, g.Has h) (hr : g.Has r) : g'.Joint types r := by
  have hgrows := hg.grows
  induction h with
  | @intro inner types r hjoint h ih =>
    rw [joint_iff]
    cases h with
    | any hany hshape =>
      refine .any ?_ (hgrows r _ hshape)
      exact (hgrows.exists_among_iff hsound hhas fun k hk => by rw [hgrows.kind?_eq hk]).2 hany
    | gathered hnone h =>
      refine .gathered ?_ ⟨?_, ?_, ?_⟩
      . intro k hk hkind
        rw [hgrows.among_iff hsound hhas] at hk
        rw [hgrows.kind?_eq (hsound.has_of_among hhas hk)] at hkind
        exact hnone k hk hkind
      . intro kind
        rw [hgrows.shows_iff hsound hr, h.kinds]
        exact (hgrows.exists_among_iff hsound hhas fun k hk => by rw [hgrows.kind?_eq hk]).symm
      . intro k cases hoffers hshape text
        rw [hgrows.offers_iff hsound hr] at hoffers
        rw [hgrows.shape?_eq (hsound.has_of_reaches hr hoffers.reaches)] at hshape
        simp only [exists_and_left]
        have hcases := h.cases hoffers hshape text
        simp only [exists_and_left] at hcases
        rw [hcases]
        exact (hgrows.exists_among_iff hsound hhas fun k hk => by rw [hgrows.shape?_eq hk]).symm
      . intro k hoffers
        rw [hgrows.offers_iff hsound hr] at hoffers
        exact (h.fits hoffers).extend hg hsound hhas (hsound.has_of_reaches hr hoffers.reaches) ih

end Growth

end Graph

end SchemaGraph
