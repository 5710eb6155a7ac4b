import SchemaGraph.Proofs.Unification.UniqueJoints

/-!
This module contains twins: graphs with the same nodes at the same places, apart from the names and
from the order of the cases of an enum. Whatever reads one of them sees the same in the other one,
and building the same in both gives the same handle and twins again.
-/

namespace SchemaGraph

inductive Shape.SameButCases : Shape → Shape → Prop
  | same (shape : Shape) : SameButCases shape shape
  | enum {cases cases' : List String} (h : cases.Perm cases') :
    SameButCases (.enum cases) (.enum cases')

namespace Shape.SameButCases

variable {shape shape' : Shape}

theorem symm (h : shape.SameButCases shape') : shape'.SameButCases shape := by
  cases h with
  | same shape => exact .same shape
  | enum h => exact .enum h.symm

theorem kind?_eq (h : shape.SameButCases shape') : shape.kind? = shape'.kind? := by
  cases h with
  | _ => rfl

theorem admitsNull_eq (h : shape.SameButCases shape') :
    Graph.admitsNull shape = Graph.admitsNull shape' := by
  cases h with
  | _ => rfl

theorem eq (h : shape.SameButCases shape') (henum : shape.kind? ≠ some .enum) : shape = shape' := by
  cases h with
  | same shape => rfl
  | enum h => exact absurd rfl henum

end Shape.SameButCases

namespace Graph

/--
The nodes of the graphs are the same, apart from the names and from the order of the cases of an
enum, and the tables have the same structures.
-/
structure Twins (g g' : Graph) : Prop where
  sound : g.Sound
  sound' : g'.Sound
  interned : g.Interned
  interned' : g'.Interned
  shapes h : Option.Rel Shape.SameButCases (g.shape? h) (g'.shape? h)
  entries {key h} : (key, h) ∈ g.shared → ∃ key' : Key, key'.same key = true ∧ (key', h) ∈ g'.shared
  entries' {key h} : (key, h) ∈ g'.shared → ∃ key' : Key, key'.same key = true ∧ (key', h) ∈ g.shared

namespace Twins

variable {g g' g'' : Graph} {k : Handle} {types types' : List Handle} {shape shape' : Shape}
  {key key' : Key}

theorem refl (hg : g.Sound) (hinterned : g.Interned) : g.Twins g where
  sound := hg
  sound' := hg
  interned := hinterned
  interned' := hinterned
  shapes h := by
    cases g.shape? h with
    | none => exact .none
    | some shape => exact .some (.same shape)
  entries hmem := ⟨_, Key.same_refl _, hmem⟩
  entries' hmem := ⟨_, Key.same_refl _, hmem⟩

theorem symm (h : g.Twins g') : g'.Twins g where
  sound := h.sound'
  sound' := h.sound
  interned := h.interned'
  interned' := h.interned
  shapes k := by
    have hshapes := h.shapes k
    revert hshapes
    generalize g.shape? k = a
    generalize g'.shape? k = b
    intro hshapes
    cases hshapes with
    | none => exact .none
    | some hsame => exact .some hsame.symm
  entries := h.entries'
  entries' := h.entries

theorem like (h : g.Twins g') (hlike : g'.Like False g'') : g.Twins g'' where
  sound := h.sound
  sound' := hlike.sound h.sound'
  interned := h.interned
  interned' := hlike.interned h.interned'
  shapes k := hlike.shapes k ▸ h.shapes k
  entries := hlike.shared ▸ h.entries
  entries' := hlike.shared ▸ h.entries'

theorem exists_shape? (h : g.Twins g') (hshape : g.shape? k = some shape) :
    ∃ shape', g'.shape? k = some shape' ∧ shape.SameButCases shape' := by
  have hshapes := h.shapes k
  rw [hshape] at hshapes
  generalize hshape' : g'.shape? k = b at hshapes
  cases hshapes with
  | some hsame => exact ⟨_, rfl, hsame⟩

theorem kind?_eq (h : g.Twins g') : g.kind? = g'.kind? := by
  funext k
  unfold Graph.kind?
  have hshapes := h.shapes k
  generalize g.shape? k = a at hshapes
  generalize g'.shape? k = b at hshapes
  cases hshapes with
  | none => rfl
  | some hsame => exact hsame.kind?_eq

theorem rank?_eq (h : g.Twins g') : g.rank? = g'.rank? := by
  funext k
  rw [rank?_eq_bind, rank?_eq_bind, h.kind?_eq]

theorem shape? (h : g.Twins g') (hshape : g.shape? k = some shape)
    (henum : shape.kind? ≠ some .enum) : g'.shape? k = some shape := by
  obtain ⟨shape', hshape', hsame⟩ := h.exists_shape? hshape
  rwa [hsame.eq henum]

theorem has (h : g.Twins g') (hhas : g.Has k) : g'.Has k := by
  obtain ⟨shape, hshape⟩ := has_iff.1 hhas
  obtain ⟨shape', hshape', -⟩ := h.exists_shape? hshape
  exact has_of_shape? hshape'

theorem size_eq (h : g.Twins g') : g.size = g'.size := by
  apply Nat.le_antisymm
  . exact Nat.le_of_not_lt fun hlt => Nat.lt_irrefl _ (h.has (k := ⟨g'.size⟩) hlt)
  . exact Nat.le_of_not_lt fun hlt => Nat.lt_irrefl _ (h.symm.has (k := ⟨g.size⟩) hlt)

theorem itemsOf?_eq_some (h : g.Twins g') {items : Handle} (hitems : g.itemsOf? k = some items) :
    g'.itemsOf? k = some items :=
  Graph.itemsOf?_eq_some.2 (h.shape? (Graph.itemsOf?_eq_some.1 hitems) nofun)

theorem valuesOf?_eq_some (h : g.Twins g') {values : Handle}
    (hvalues : g.valuesOf? k = some values) : g'.valuesOf? k = some values := by
  obtain ⟨slot, hshape⟩ := shape?_of_kind? (kind?_of_valuesOf? hvalues)
  unfold Graph.valuesOf? at hvalues ⊢
  rw [h.shape? hshape nofun]
  rwa [hshape] at hvalues

theorem offers (h : g.Twins g') {r : Handle} (hoffers : g.Offers r k) : g'.Offers r k := by
  induction hoffers with
  | itself => exact .itself
  | member hshape hmem _ ih => exact .member (h.shape? hshape nofun) hmem ih
  | inner hshape _ ih => exact .inner (h.shape? hshape nofun) ih

theorem takes (h : g.Twins g') (hsame : shape.SameButCases shape') (htakes : g.Takes shape) :
    g'.Takes shape' := by
  cases hsame with
  | enum _ => exact ⟨nofun, trivial⟩
  | same shape =>
    refine ⟨fun child hchild => h.has (htakes.inside child hchild), ?_⟩
    have hallows := htakes.allows
    cases shape with
    | union members => exact ⟨hallows.1, h.rank?_eq ▸ hallows.2⟩
    | nullable inner =>
      obtain ⟨shape, hinner, hplain⟩ := hallows
      obtain ⟨shape', hinner', hsame⟩ := h.exists_shape? hinner
      exact ⟨shape', hinner', hsame.admitsNull_eq ▸ hplain⟩
    | record fields =>
      cases fields with
      | pending => trivial
      | filled fields => exact hallows
    | _ => trivial

theorem shared?_eq (h : g.Twins g') (hsame : key.same key' = true) :
    g.shared? key = g'.shared? key' := by
  have hfound : ∀ {g g' : Graph} {key key' : Key} {k : Handle}, g.Twins g' →
      key.same key' = true → g.shared? key = some k → g'.shared? key' = some k := by
    intro g g' key key' k h hsame hfound
    obtain ⟨key₁, hsame₁, hmem⟩ := shared?_eq_some hfound
    obtain ⟨key₂, hsame₂, hmem'⟩ := h.entries hmem
    exact h.interned'.shared?_of_same hmem'
      (Key.same_trans hsame₂ (Key.same_trans hsame₁ hsame))
  ext k
  exact ⟨hfound h hsame, hfound h.symm (Key.same_symm hsame)⟩

theorem entries_cons {shared shared' : List (Key × Handle)} (hsame : key.same key' = true)
    (h : ∀ {key h}, (key, h) ∈ shared → ∃ key' : Key, key'.same key = true ∧ (key', h) ∈ shared')
    {key₀ : Key} {h₀ : Handle} (hmem : (key₀, h₀) ∈ (key, k) :: shared) :
    ∃ key₁ : Key, key₁.same key₀ = true ∧ (key₁, h₀) ∈ (key', k) :: shared' := by
  rcases List.mem_cons.1 hmem with heq | hmem
  . cases heq
    exact ⟨key', Key.same_symm hsame, List.mem_cons_self ..⟩
  . obtain ⟨key₁, hsame₁, hmem₁⟩ := h hmem
    exact ⟨key₁, hsame₁, List.mem_cons_of_mem _ hmem₁⟩

theorem share (h : g.Twins g') (hsame : key.same key' = true)
    (hshapes : key.shape.SameButCases key'.shape) (htakes : g.Takes key.shape)
    (hint hint' : Option NameHint) :
    (g.share key key.shape hint).1 = (g'.share key' key'.shape hint').1 ∧
      (g.share key key.shape hint).2.Twins (g'.share key' key'.shape hint').2 := by
  have hhandle : (g.share key key.shape hint).1 = (g'.share key' key'.shape hint').1 := by
    unfold Graph.share
    rw [h.shared?_eq hsame]
    cases g'.shared? key' with
    | some k => cases hint <;> cases hint' <;> rfl
    | none => exact congrArg Handle.mk h.size_eq
  obtain ⟨_, -, hgives⟩ := gives_share h.sound htakes hint
  obtain ⟨_, -, hgives'⟩ := gives_share h.sound' (h.takes hshapes htakes) hint'
  have hfinds := findsOrMakes_share g key key.shape hint
  have hfinds' := findsOrMakes_share g' key' key'.shape hint'
  have hinterned := h.interned.share hfinds
  have hinterned' := h.interned'.share hfinds'
  refine ⟨hhandle, ?_⟩
  generalize g.share key key.shape hint = r at *
  generalize g'.share key' key'.shape hint' = r' at *
  rcases hfinds with ⟨hsame₁, hmem, hshared, hshape⟩ | ⟨hnew, hfresh, hshared, hshape⟩
  . rcases hfinds' with ⟨-, -, hshared', hshape'⟩ | ⟨-, hfresh', -, -⟩
    . refine ⟨hgives.sound, hgives'.sound, hinterned, hinterned', ?_, ?_, ?_⟩
      . intro k
        rw [hshape, hshape']
        exact h.shapes k
      . rw [hshared, hshared']
        exact h.entries
      . rw [hshared, hshared']
        exact h.entries'
    . rw [← hhandle] at hfresh'
      exact absurd (h.has (h.interned.has hmem)) hfresh'
  . rcases hfinds' with ⟨-, hmem', -, -⟩ | ⟨-, -, hshared', hshape'⟩
    . rw [hhandle] at hfresh
      exact absurd (h.symm.has (h.interned'.has hmem')) hfresh
    . refine ⟨hgives.sound, hgives'.sound, hinterned, hinterned', ?_, ?_, ?_⟩
      . intro k
        rw [hshape, hshape', hhandle]
        split
        . exact .some hshapes
        . exact h.shapes k
      . rw [hshared, hshared', hhandle]
        exact entries_cons hsame h.entries
      . rw [hshared, hshared', hhandle]
        exact entries_cons (Key.same_symm hsame) h.entries'

theorem addNullable (h : g.Twins g') {inner : Handle} (hhas : g.Has inner) (hint hint' : NameHint) :
    (g.addNullable inner hint).1 = (g'.addNullable inner hint').1 ∧
      (g.addNullable inner hint).2.Twins (g'.addNullable inner hint').2 := by
  obtain ⟨shape, hshape⟩ := has_iff.1 hhas
  obtain ⟨shape', hshape', hsame⟩ := h.exists_shape? hshape
  unfold Graph.addNullable
  rw [hshape, hshape', Option.any_some, Option.any_some, hsame.admitsNull_eq]
  split
  . exact ⟨rfl, h⟩
  . next hplain =>
    rw [← hsame.admitsNull_eq, Bool.not_eq_true] at hplain
    have htakes : g.Takes (.nullable inner) :=
      ⟨List.forall_mem_singleton.2 hhas, shape, hshape, hplain⟩
    exact h.share (Key.same_refl (.nullable inner)) (.same _) htakes _ _

section Leaves

variable (h : g.Twins g') (hset : ∀ k, k ∈ types ↔ k ∈ types')

include h hset

theorem among (hk : g.Among {h | h ∈ types} k) : g'.Among {h | h ∈ types'} k := by
  obtain ⟨type, hmem, hoffers⟩ := hk
  exact ⟨type, (hset type).1 hmem, h.offers hoffers⟩

theorem among_iff : g.Among {h | h ∈ types} k ↔ g'.Among {h | h ∈ types'} k :=
  ⟨h.among hset, h.symm.among fun k => (hset k).symm⟩

variable (hhas : ∀ h ∈ types, g.Has h)

include hhas

theorem has_all : ∀ h ∈ types', g'.Has h :=
  fun k hmem => h.has (hhas k ((hset k).2 hmem))

theorem shows_leaves (kind : Kind) :
    Leaves.shows (g.leaves types) kind = Leaves.shows (g'.leaves types') kind := by
  rw [Bool.eq_iff_iff, h.sound.shows_leaves_iff hhas,
    h.sound'.shows_leaves_iff (h.has_all hset hhas)]
  change g.ShowsAmong types kind ↔ g'.ShowsAmong types' kind
  rw [showsAmong_iff, showsAmong_iff, h.kind?_eq]
  exact exists_congr fun k => and_congr_left fun _ => h.among_iff hset

theorem mem_maps : k ∈ Leaves.maps (g.leaves types) ↔ k ∈ Leaves.maps (g'.leaves types') := by
  rw [h.sound.mem_maps_leaves hhas, h.sound'.mem_maps_leaves (h.has_all hset hhas), h.kind?_eq,
    h.among_iff hset]

theorem mem_records :
    k ∈ Leaves.records (g.leaves types) ↔ k ∈ Leaves.records (g'.leaves types') := by
  rw [h.sound.mem_records_leaves hhas, h.sound'.mem_records_leaves (h.has_all hset hhas), h.kind?_eq,
    h.among_iff hset]

theorem mem_items : k ∈ Leaves.items (g.leaves types) ↔ k ∈ Leaves.items (g'.leaves types') := by
  have hcontents : ∀ {g : Graph} {types : List Handle}, g.Sound → (∀ h ∈ types, g.Has h) →
      (k ∈ Leaves.items (g.leaves types) ↔ k ∈ g.Contents g.itemsOf? {h | h ∈ types}) :=
    fun hg hhas => by rw [← (Grows.refl _).items_leaves hg hhas]; exact Iff.rfl
  rw [hcontents h.sound hhas, hcontents h.sound' (h.has_all hset hhas)]
  constructor
  . rintro ⟨l, hl, hitems⟩
    exact ⟨l, h.among hset hl, h.itemsOf?_eq_some hitems⟩
  . rintro ⟨l, hl, hitems⟩
    exact ⟨l, (h.among_iff hset).2 hl, h.symm.itemsOf?_eq_some hitems⟩

theorem mem_case {text : String} : (∃ cases ∈ Leaves.enums (g.leaves types), text ∈ cases) ↔
    ∃ cases ∈ Leaves.enums (g'.leaves types'), text ∈ cases := by
  have hcases : ∀ {g g' : Graph} {types types' : List Handle}, g.Twins g' →
      (∀ k, k ∈ types ↔ k ∈ types') → (∀ h ∈ types, g.Has h) →
      (∃ cases ∈ Leaves.enums (g.leaves types), text ∈ cases) →
      ∃ cases ∈ Leaves.enums (g'.leaves types'), text ∈ cases := by
    intro g g' types types' h hset hhas hcase
    rw [h.sound.mem_case_iff hhas, exists_case_iff] at hcase
    rw [h.sound'.mem_case_iff (h.has_all hset hhas), exists_case_iff]
    obtain ⟨l, cases, hl, hshape, htext⟩ := hcase
    obtain ⟨shape, hshape', hsame⟩ := h.exists_shape? hshape
    cases hsame with
    | same _ => exact ⟨l, cases, h.among hset hl, hshape', htext⟩
    | enum hperm => exact ⟨l, _, h.among hset hl, hshape', hperm.mem_iff.1 htext⟩
  exact ⟨hcases h hset hhas, hcases h.symm (fun k => (hset k).symm) (h.has_all hset hhas)⟩

omit hhas in
theorem mem_valuesRead : k ∈ (g.valuesRead types).map Prod.snd ↔
    k ∈ (g'.valuesRead types').map Prod.snd := by
  have hreads : ∀ {g g' : Graph} {maps maps' : List Handle}, g.Twins g' →
      (∀ k, k ∈ maps ↔ k ∈ maps') → k ∈ (g.valuesRead maps).map Prod.snd →
      k ∈ (g'.valuesRead maps').map Prod.snd := by
    intro g g' maps maps' h hset hmem
    obtain ⟨⟨map, values⟩, hread, rfl⟩ := List.mem_map.1 hmem
    obtain ⟨hmap, hvalues⟩ := Graph.mem_valuesRead.1 hread
    exact List.mem_map.2 ⟨(map, values),
      Graph.mem_valuesRead.2 ⟨(hset map).1 hmap, h.valuesOf?_eq_some hvalues⟩, rfl⟩
  exact ⟨hreads h hset, hreads h.symm fun k => (hset k).symm⟩

end Leaves

end Twins

end Graph

end SchemaGraph
