import SchemaGraph.Proofs.Descent.NormalForm

/-!
This module contains the alternatives that a type offers: what is left when its unions and nullables
are opened. They are told apart by their kinds. A type offers at most one alternative of each kind,
and the alternatives of some types are the leaves that a unification works on.
-/

namespace SchemaGraph

inductive Kind where
  | primitive (kind : Primitive)
  | string
  | enum
  | array
  | map
  | record
  deriving DecidableEq

def Shape.kind? : Shape → Option Kind
  | .primitive kind => some (.primitive kind)
  | .string => some .string
  | .enum _ => some .enum
  | .array _ => some .array
  | .map _ => some .map
  | .record _ => some .record
  | .union _ => none
  | .nullable _ => some (.primitive .null)

def Kind.rank? : Kind → Option Nat
  | .primitive kind => (Shape.primitive kind).rank?
  | .string => some 4
  | .enum => some 8
  | .array => some 9
  | .map => some 0
  | .record => some 0

theorem Shape.rank?_eq_bind (shape : Shape) : shape.rank? = shape.kind?.bind Kind.rank? := by
  cases shape with
  | _ => rfl

theorem Ascends.eq_of_rank? {α : Type} {rank? : α → Option Nat} {low high : Nat} {as : List α}
    {a b : α} (h : Ascends rank? low high as) (ha : a ∈ as) (hb : b ∈ as)
    (hrank : rank? a = rank? b) : a = b := by
  induction as generalizing low with
  | nil => cases ha
  | cons first rest ih =>
    obtain ⟨rank, hfirst, -, -, hrest⟩ := h
    have hlater : ∀ c ∈ rest, rank? c ≠ some rank := by
      intro c hc heq
      obtain ⟨rank', hrank', hlow⟩ := hrest.exists_rank hc
      cases heq.symm.trans hrank'
      exact Nat.not_succ_le_self rank hlow
    rcases List.mem_cons.1 ha with rfl | harest
    . rcases List.mem_cons.1 hb with rfl | hbrest
      . rfl
      . exact absurd (hrank.symm.trans hfirst) (hlater b hbrest)
    . rcases List.mem_cons.1 hb with rfl | hbrest
      . exact absurd (hrank.trans hfirst) (hlater a harest)
      . exact ih hrest harest hbrest

namespace Graph

def kind? (g : Graph) (h : Handle) : Option Kind :=
  (g.shape? h).bind Shape.kind?

/--
The second type is the first one, or what is left of it when unions and nullables are opened.
-/
inductive Offers (g : Graph) : Handle → Handle → Prop where
  | itself {h : Handle} : Offers g h h
  | member {h member k : Handle} {members : List Handle}
    (hshape : g.shape? h = some (.union members)) (hmem : member ∈ members)
    (hoffers : Offers g member k) : Offers g h k
  | inner {h inner k : Handle} (hshape : g.shape? h = some (.nullable inner))
    (hoffers : Offers g inner k) : Offers g h k

def Shows (g : Graph) (h : Handle) (kind : Kind) : Prop :=
  ∃ k, g.Offers h k ∧ g.kind? k = some kind

variable {g : Graph} {h k k' : Handle} {shape : Shape} {kind : Kind}

theorem kind?_of_shape? (hshape : g.shape? h = some shape) : g.kind? h = shape.kind? := by
  unfold kind?
  rw [hshape, Option.bind_some]

theorem has_of_kind? (hkind : g.kind? k = some kind) : g.Has k := by
  obtain ⟨shape, hshape, -⟩ := Option.bind_eq_some_iff.1 hkind
  exact has_of_shape? hshape

theorem shape?_of_kind? (hkind : g.kind? k = some kind) :
    match kind with
    | .primitive kind => kind = .null ∨ g.shape? k = some (.primitive kind)
    | .string => g.shape? k = some .string
    | .enum => ∃ cases, g.shape? k = some (.enum cases)
    | .array => ∃ items, g.shape? k = some (.array items)
    | .map => ∃ values, g.shape? k = some (.map values)
    | .record => ∃ fields, g.shape? k = some (.record fields) := by
  obtain ⟨shape, hshape, hshapeKind⟩ := Option.bind_eq_some_iff.1 hkind
  cases shape with
  | union members => cases hshapeKind
  | nullable inner =>
    cases hshapeKind
    exact Or.inl rfl
  | primitive kind =>
    cases hshapeKind
    exact Or.inr hshape
  | string =>
    cases hshapeKind
    exact hshape
  | _ =>
    cases hshapeKind
    exact ⟨_, hshape⟩

theorem rank?_eq_bind (g : Graph) (h : Handle) : g.rank? h = (g.kind? h).bind Kind.rank? := by
  unfold rank? kind?
  cases g.shape? h with
  | none => rfl
  | some shape => exact shape.rank?_eq_bind

theorem offers_iff (hshape : g.shape? h = some shape) : g.Offers h k ↔ k = h ∨
    match shape with
    | .union members => ∃ member ∈ members, g.Offers member k
    | .nullable inner => g.Offers inner k
    | _ => False := by
  constructor
  . intro hoffers
    cases hoffers with
    | itself => exact Or.inl rfl
    | member hshape' hmem hoffers =>
      cases hshape.symm.trans hshape'
      exact Or.inr ⟨_, hmem, hoffers⟩
    | inner hshape' hoffers =>
      cases hshape.symm.trans hshape'
      exact Or.inr hoffers
  . rintro (rfl | hinside)
    . exact .itself
    . cases shape with
      | union members =>
        obtain ⟨member, hmem, hoffers⟩ := hinside
        exact .member hshape hmem hoffers
      | nullable inner => exact .inner hshape hinside
      | _ => cases hinside

theorem offers_iff_of_rank? {rank : Nat} (hrank : g.rank? h = some rank) :
    g.Offers h k ↔ k = h := by
  obtain ⟨shape, hshape, hshapeRank⟩ := Option.bind_eq_some_iff.1 hrank
  rw [offers_iff hshape]
  cases shape with
  | union members => cases hshapeRank
  | nullable inner => cases hshapeRank
  | _ => simp

theorem Sound.offers_union (hg : g.Sound) {members : List Handle}
    (hshape : g.shape? h = some (.union members)) : g.Offers h k ↔ k = h ∨ k ∈ members := by
  rw [offers_iff hshape]
  apply or_congr Iff.rfl
  have hmember : ∀ member ∈ members, (g.Offers member k ↔ k = member) := by
    intro member hmem
    obtain ⟨rank, hrank, -⟩ := (hg.allows hshape).2.exists_rank hmem
    exact offers_iff_of_rank? hrank
  constructor
  . rintro ⟨member, hmem, hoffers⟩
    rwa [(hmember member hmem).1 hoffers]
  . exact fun hmem => ⟨k, hmem, .itself⟩

theorem rank?_of_kind?_null (hkind : g.kind? h = some (.primitive .null)) : g.rank? h = none := by
  rw [rank?_eq_bind, hkind]
  rfl

theorem exists_kind_of_rank? {rank : Nat} (hrank : g.rank? k = some rank) :
    ∃ kind, g.kind? k = some kind ∧ kind ≠ .primitive .null := by
  have hbind := g.rank?_eq_bind k
  rw [hrank] at hbind
  obtain ⟨kind, hkind, hsome⟩ := Option.bind_eq_some_iff.1 hbind.symm
  refine ⟨kind, hkind, ?_⟩
  rintro rfl
  cases hsome

theorem Sound.exists_rank_of_offers (hg : g.Sound) (hshape : g.shape? h = some shape)
    (hnull : admitsNull shape = false) (hoffers : g.Offers h k) (hkind : g.kind? k = some kind) :
    ∃ rank, g.rank? k = some rank := by
  cases shape with
  | union members =>
    rcases (hg.offers_union hshape).1 hoffers with rfl | hmem
    . rw [kind?_of_shape? hshape] at hkind
      cases hkind
    . obtain ⟨rank, hrank, -⟩ := (hg.allows hshape).2.exists_rank hmem
      exact ⟨rank, hrank⟩
  | nullable inner => cases hnull
  | primitive primitive =>
    obtain rfl : k = h := by simpa [offers_iff hshape] using hoffers
    rw [rank?_of_shape? hshape]
    cases primitive with
    | any => cases hnull
    | null => cases hnull
    | _ => exact ⟨_, rfl⟩
  | _ =>
    obtain rfl : k = h := by simpa [offers_iff hshape] using hoffers
    rw [rank?_of_shape? hshape]
    exact ⟨_, rfl⟩

theorem Sound.offers_unique_of_union (hg : g.Sound) {members : List Handle}
    (hshape : g.shape? h = some (.union members)) (hk : g.Offers h k) (hk' : g.Offers h k')
    (hkind : g.kind? k = some kind) (hkind' : g.kind? k' = some kind) : k = k' := by
  have hmember : ∀ {l}, g.Offers h l → g.kind? l = some kind → l ∈ members := by
    intro l hl hlkind
    rcases (hg.offers_union hshape).1 hl with rfl | hmem
    . rw [kind?_of_shape? hshape] at hlkind
      cases hlkind
    . exact hmem
  apply (hg.allows hshape).2.eq_of_rank? (hmember hk hkind) (hmember hk' hkind')
  rw [rank?_eq_bind, rank?_eq_bind, hkind, hkind']

theorem Sound.offers_unique_of_nullable (hg : g.Sound) {inner : Handle}
    (hshape : g.shape? h = some (.nullable inner)) (hk : g.Offers inner k)
    (hk' : g.Offers h k') (hkind : g.kind? k = some kind) (hkind' : g.kind? k' = some kind) :
    k = k' := by
  obtain ⟨shape, hinner, hnull⟩ := hg.allows hshape
  obtain ⟨rank, hrank⟩ := hg.exists_rank_of_offers hinner hnull hk hkind
  rcases (offers_iff hshape).1 hk' with rfl | hk'
  . rw [kind?_of_shape? hshape] at hkind'
    cases hkind'
    rw [rank?_of_kind?_null hkind] at hrank
    cases hrank
  . cases shape with
    | union members => exact hg.offers_unique_of_union hinner hk hk' hkind hkind'
    | nullable inner => cases hnull
    | _ =>
      obtain rfl : k = inner := by simpa [offers_iff hinner] using hk
      obtain rfl : k' = k := by simpa [offers_iff hinner] using hk'
      rfl

theorem Sound.offers_unique (hg : g.Sound) (hk : g.Offers h k) (hk' : g.Offers h k')
    (hkind : g.kind? k = some kind) (hkind' : g.kind? k' = some kind) : k = k' := by
  cases hk with
  | itself =>
    cases hk' with
    | itself => rfl
    | member hshape hmem hoffers =>
      exact hg.offers_unique_of_union hshape .itself (.member hshape hmem hoffers) hkind hkind'
    | inner hshape hoffers =>
      exact (hg.offers_unique_of_nullable hshape hoffers .itself hkind' hkind).symm
  | member hshape hmem hoffers =>
    exact hg.offers_unique_of_union hshape (.member hshape hmem hoffers) hk' hkind hkind'
  | inner hshape hoffers =>
    exact hg.offers_unique_of_nullable hshape hoffers hk' hkind hkind'

theorem offers_of_mem_opened {depth : Nat} {leaf : Leaf} (hleaf : leaf ∈ g.opened depth h) :
    g.Offers h leaf.1 := by
  induction depth generalizing h with
  | zero => cases hleaf
  | succ depth ih =>
    cases hshape : g.shape? h with
    | none =>
      unfold opened at hleaf
      rw [hshape] at hleaf
      cases hleaf
    | some shape =>
      rw [opened_succ depth _ hshape] at hleaf
      cases shape with
      | union members =>
        obtain ⟨member, hmem, hmember⟩ := List.mem_flatMap.1 hleaf
        exact .member hshape hmem (ih hmember)
      | nullable inner =>
        rcases List.mem_cons.1 hleaf with rfl | hinner
        . exact .itself
        . exact .inner hshape (ih hinner)
      | _ =>
        rw [List.mem_singleton.1 hleaf]
        exact .itself

theorem Offers.mem_opened (hoffers : g.Offers h k) (hg : g.Sound) {depth : Nat}
    (hdepth : h.index < depth) (hshape : g.shape? k = some shape)
    (hunion : ∀ members, shape ≠ .union members) : (k, shape) ∈ g.opened depth h := by
  induction hoffers generalizing depth with
  | itself =>
    obtain ⟨depth, rfl⟩ := Nat.exists_eq_succ_of_ne_zero (Nat.ne_zero_of_lt hdepth)
    rw [opened_succ depth _ hshape]
    cases shape with
    | union members => exact absurd rfl (hunion members)
    | nullable inner => exact List.mem_cons_self ..
    | _ => exact List.mem_singleton_self _
  | member hparent hmem _ ih =>
    obtain ⟨depth, rfl⟩ := Nat.exists_eq_succ_of_ne_zero (Nat.ne_zero_of_lt hdepth)
    have hlt := hg.descends hparent _ hmem
    rw [opened_succ depth _ hparent]
    exact List.mem_flatMap.2 ⟨_, hmem, ih (by omega) hshape⟩
  | inner hparent _ ih =>
    obtain ⟨depth, rfl⟩ := Nat.exists_eq_succ_of_ne_zero (Nat.ne_zero_of_lt hdepth)
    have hlt := hg.descends hparent _ (List.mem_singleton_self _)
    rw [opened_succ depth _ hparent]
    exact List.mem_cons_of_mem _ (ih (by omega) hshape)

theorem Sound.mem_leaves_iff (hg : g.Sound) {types : List Handle}
    (hhas : ∀ type ∈ types, g.Has type) {leaf : Leaf} :
    leaf ∈ g.leaves types ↔ (∃ type ∈ types, g.Offers type leaf.1) ∧
      g.shape? leaf.1 = some leaf.2 ∧ ∀ members, leaf.2 ≠ .union members := by
  unfold leaves
  rw [List.mem_flatMap]
  constructor
  . rintro ⟨type, hmem, hleaf⟩
    exact ⟨⟨type, hmem, offers_of_mem_opened hleaf⟩, shape?_of_mem_opened hleaf⟩
  . rintro ⟨⟨type, hmem, hoffers⟩, hshape, hunion⟩
    exact ⟨type, hmem,
      hoffers.mem_opened hg (Nat.lt_succ_of_lt (hhas type hmem)) hshape hunion⟩

theorem Sound.exists_shows (hg : g.Sound) (hhas : g.Has h) : ∃ kind, g.Shows h kind := by
  obtain ⟨shape, hshape⟩ := has_iff.1 hhas
  cases shape with
  | union members =>
    obtain ⟨hmany, hascends⟩ := hg.allows hshape
    match members with
    | [] => cases hmany
    | member :: rest =>
      obtain ⟨rank, hrank, -⟩ := hascends.exists_rank (List.mem_cons_self ..)
      rw [rank?_eq_bind] at hrank
      obtain ⟨kind, hkind, -⟩ := Option.bind_eq_some_iff.1 hrank
      exact ⟨kind, member, .member hshape (List.mem_cons_self ..) .itself, hkind⟩
  | _ => exact ⟨_, h, .itself, kind?_of_shape? hshape⟩

end Graph

def Leaves.shows (leaves : List Leaf) (kind : Kind) : Bool :=
  leaves.any fun leaf => leaf.2.kind? = some kind

theorem Leaves.shows_iff {leaves : List Leaf} {kind : Kind} :
    Leaves.shows leaves kind = true ↔ ∃ leaf ∈ leaves, leaf.2.kind? = some kind := by
  simp [Leaves.shows, List.any_eq_true]

theorem Graph.Sound.shows_leaves_iff {g : Graph} (hg : g.Sound) {types : List Handle}
    (hhas : ∀ type ∈ types, g.Has type) {kind : Kind} :
    Leaves.shows (g.leaves types) kind = true ↔ ∃ type ∈ types, g.Shows type kind := by
  rw [Leaves.shows_iff]
  constructor
  . rintro ⟨leaf, hleaf, hkind⟩
    obtain ⟨⟨type, hmem, hoffers⟩, hshape, -⟩ := (hg.mem_leaves_iff hhas).1 hleaf
    exact ⟨type, hmem, leaf.1, hoffers, (Graph.kind?_of_shape? hshape).trans hkind⟩
  . rintro ⟨type, hmem, k, hoffers, hkind⟩
    obtain ⟨shape, hshape, hshapeKind⟩ := Option.bind_eq_some_iff.1 hkind
    refine ⟨(k, shape), (hg.mem_leaves_iff hhas).2 ⟨⟨type, hmem, hoffers⟩, hshape, ?_⟩, hshapeKind⟩
    rintro members rfl
    cases hshapeKind

end SchemaGraph
