import SchemaGraph.Conversion.Session
import SchemaGraph.Proofs.Unification.Alternatives

/-!
This module contains the proof that a unification gathers alternatives: the result offers what the
given types offer, one alternative of each kind, and nothing else. This holds in every state of a
session, for types that are not finished and for shared nodes that are older than the unification.
-/

namespace SchemaGraph

namespace Graph

def ShowsAmong (g : Graph) (types : List Handle) (kind : Kind) : Prop :=
  ∃ type ∈ types, g.Shows type kind

/--
In `g'` the type `r` gathers the alternatives that some types have in `g`. The type `any` absorbs all
others. Without it there is exactly one alternative of each kind that one of the types has. An enum
has the cases of all enums. If there is nothing but null then the type is null itself.
-/
structure Gathers (g : Graph) (types : List Handle) (g' : Graph) (r : Handle) : Prop where
  any : g.ShowsAmong types (.primitive .any) → g'.shape? r = some (.primitive .any)
  shows_iff kind : ¬g.ShowsAmong types (.primitive .any) →
    (g'.Shows r kind ↔ g.ShowsAmong types kind)
  unique {k k' kind} : g'.Offers r k → g'.Offers r k' → g'.kind? k = some kind →
    g'.kind? k' = some kind → k = k'
  cases {k cases} : g'.Offers r k → g'.shape? k = some (.enum cases) → ∀ text, text ∈ cases ↔
    ∃ type ∈ types, ∃ k' cases', g.Offers type k' ∧ g.shape? k' = some (.enum cases') ∧
      text ∈ cases'
  null : (∀ kind, g.ShowsAmong types kind → kind = .primitive .null) →
    g'.shape? r = some (.primitive .null)

variable {g : Graph} {types : List Handle}

theorem Sound.mem_case_iff (hg : g.Sound) (hhas : ∀ type ∈ types, g.Has type) {text : String} :
    (∃ cases ∈ Leaves.enums (g.leaves types), text ∈ cases) ↔ ∃ type ∈ types, ∃ k cases,
      g.Offers type k ∧ g.shape? k = some (.enum cases) ∧ text ∈ cases := by
  constructor
  . rintro ⟨cases, hcases, htext⟩
    obtain ⟨k, hleaf⟩ := Leaves.mem_enums_iff.1 hcases
    obtain ⟨⟨type, hmem, hoffers⟩, hshape, -⟩ := (hg.mem_leaves_iff hhas).1 hleaf
    exact ⟨type, hmem, k, cases, hoffers, hshape, htext⟩
  . rintro ⟨type, hmem, k, cases, hoffers, hshape, htext⟩
    have hleaf : (k, Shape.enum cases) ∈ g.leaves types :=
      (hg.mem_leaves_iff hhas).2 ⟨⟨type, hmem, hoffers⟩, hshape, nofun⟩
    exact ⟨cases, Leaves.mem_enums_iff.2 ⟨k, hleaf⟩, htext⟩

end Graph

namespace Unification

section

variable {types found : List Handle} {s t : State} {r : Handle}

theorem gathers_of_any (ht : t.graph.Sound)
    (hany : s.graph.ShowsAmong types (.primitive .any))
    (hshape : t.graph.shape? r = some (.primitive .any)) : s.graph.Gathers types t.graph r where
  any _ := hshape
  shows_iff _ hnone := absurd hany hnone
  unique := ht.offers_unique
  cases hoffers henum := by
    obtain rfl := (by simpa using (Graph.offers_iff hshape).1 hoffers : _ = r)
    cases hshape.symm.trans henum
  null hnull := nomatch hnull _ hany

section

variable {kind : Kind} (hs : s.graph.Sound) (hhas : ∀ type ∈ types, s.graph.Has type)
  (hpicked : Picked (s.graph.leaves types) memberKinds s found t)

include hs hhas hpicked

theorem exists_found_iff : (∃ k ∈ found, t.graph.kind? k = some kind) ↔
    kind ∈ memberKinds ∧ s.graph.ShowsAmong types kind := by
  rw [hpicked.exists_mem_iff, hs.shows_leaves_iff hhas]
  exact Iff.rfl

theorem showsAmong_null_of_nil (htypes : types ≠ [])
    (hnone : ¬s.graph.ShowsAmong types (.primitive .any)) (hnil : found = []) :
    s.graph.ShowsAmong types (.primitive .null) := by
  obtain ⟨type, hmem⟩ := List.exists_mem_of_ne_nil types htypes
  obtain ⟨kind, hkind⟩ := hs.exists_shows (hhas type hmem)
  have hamong : s.graph.ShowsAmong types kind := ⟨type, hmem, hkind⟩
  by_cases hnull : kind = .primitive .null
  . rwa [hnull] at hamong
  . have hany : kind ≠ .primitive .any := by
      rintro rfl
      exact hnone hamong
    obtain ⟨k, hk, -⟩ := (exists_found_iff hs hhas hpicked).2
      ⟨mem_memberKinds_iff.2 ⟨hany, hnull⟩, hamong⟩
    rw [hnil] at hk
    cases hk

theorem shows_iff_of_packs (htypes : types ≠ [])
    (hnone : ¬s.graph.ShowsAmong types (.primitive .any))
    (hpacks : Packs t.graph found (Leaves.shows (s.graph.leaves types) (.primitive .null)) r) :
    t.graph.Shows r kind ↔ s.graph.ShowsAmong types kind := by
  by_cases hnull : kind = .primitive .null
  . rw [hnull, hpacks.shows_null_iff hpicked.sound fun k hk => hpicked.exists_rank hk,
      hs.shows_leaves_iff hhas]
    exact or_iff_left_of_imp (showsAmong_null_of_nil hs hhas hpicked htypes hnone)
  . have hshows : t.graph.Shows r kind ↔ ∃ k ∈ found, t.graph.kind? k = some kind :=
      exists_congr fun k => and_congr_left fun hkind =>
        hpacks.offers_iff hpicked.sound hkind hnull
    rw [hshows, exists_found_iff hs hhas hpicked]
    apply and_iff_right_of_imp
    intro hamong
    refine mem_memberKinds_iff.2 ⟨?_, hnull⟩
    rintro rfl
    exact hnone hamong

theorem gathers_of_packs (htypes : types ≠ [])
    (hnone : ¬s.graph.ShowsAmong types (.primitive .any))
    (hpacks : Packs t.graph found (Leaves.shows (s.graph.leaves types) (.primitive .null)) r) :
    s.graph.Gathers types t.graph r where
  any hany := absurd hany hnone
  shows_iff kind _ := shows_iff_of_packs hs hhas hpicked htypes hnone hpacks
  unique := hpicked.sound.offers_unique
  cases := by
    intro k cases hoffers henum text
    have hmem : k ∈ found :=
      (hpacks.offers_iff hpicked.sound (Graph.kind?_of_shape? henum) nofun).1 hoffers
    rw [hpicked.cases hmem henum]
    exact hs.mem_case_iff hhas
  null := by
    intro hnull
    have hnil : found = [] := by
      rw [List.eq_nil_iff_forall_not_mem]
      intro k hk
      obtain ⟨kind, -, hkind⟩ := hpicked.exists_kind hk
      obtain ⟨hmember, hamong⟩ := (exists_found_iff hs hhas hpicked).1 ⟨k, hk, hkind⟩
      exact (mem_memberKinds_iff.1 hmember).2 (hnull kind hamong)
    rw [hnil] at hpacks
    exact hpacks.shape?_of_nil hpicked.sound

end

theorem gathers_of_combined (hs : s.graph.Sound) (hhas : ∀ type ∈ types, s.graph.Has type)
    (htypes : types ≠ []) (ht : t.graph.Sound) (h : Combined (s.graph.leaves types) s r t) :
    s.graph.Gathers types t.graph r := by
  unfold Combined at h
  have hany : Leaves.shows (s.graph.leaves types) (.primitive .any) = true ↔
    s.graph.ShowsAmong types (.primitive .any) := hs.shows_leaves_iff hhas
  split at h
  . next habsorbed => exact gathers_of_any ht (hany.1 habsorbed) h
  . next hnone =>
    obtain ⟨found, hpicked, hpacks⟩ := h
    exact gathers_of_packs hs hhas hpicked htypes (mt hany.2 hnone) hpacks

end

end Unification

namespace Conversion

open Unification

theorem gathers_of_unify {document : Json} (hkeys : document.hasUniqueKeys = true)
    {steps : List SessionStep} (hsteps : (State.start document).Takes steps) {types : List Handle}
    (hmany : 2 ≤ types.length) (hint : NameHint) (loc : Location) {r : Handle} {t : State}
    (hhas : ∀ h ∈ types, ((State.start document).after steps).graph.Has h)
    (hrun : (unify types hint loc).run ((State.start document).after steps) = (.ok r, t)) :
    ((State.start document).after steps).graph.Gathers types t.graph r := by
  have hsound := ((State.valid_start document).after hkeys hsteps).sound
  match types, hmany with
  | h :: k :: rest, _ =>
    obtain ⟨hgrown, hcombined⟩ := (combines_unify hint loc hsound).ok hrun
    exact gathers_of_combined hsound hhas (List.cons_ne_nil _ _) hgrown.sound hcombined

def extentDocument : Json :=
  .object [("enum", .array [.string "small", .string "large"])]

def extentSession : List SessionStep :=
  [.convert extentDocument .root (.inferred "Size"),
    .convert (.object [("enum", .array [.string "large", .string "vast"])])
      (Location.root.child (.oneOf 1)) (.inferred "Extent"),
    .convert (.object [("type", .string "array")]) (Location.root.child (.oneOf 2))
      (.inferred "List"),
    .nullable ⟨3⟩ (.inferred "List")]

theorem gathers_of_unify_extents :
    let s := (State.start extentDocument).after extentSession
    let t := ((unify [⟨0⟩, ⟨4⟩, ⟨1⟩] (.inferred "Any") .root).run s).2
    (unify [⟨0⟩, ⟨4⟩, ⟨1⟩] (.inferred "Any") .root).run s = (.ok ⟨7⟩, t) ∧
      s.graph.Gathers [⟨0⟩, ⟨4⟩, ⟨1⟩] t.graph ⟨7⟩ := by
  intro s t
  have hok : ((unify [⟨0⟩, ⟨4⟩, ⟨1⟩] (.inferred "Any") .root).run s).1 = .ok ⟨7⟩ := by
    decide +kernel
  have hrun : (unify [⟨0⟩, ⟨4⟩, ⟨1⟩] (.inferred "Any") .root).run s = (.ok ⟨7⟩, t) :=
    Effect.run_eq_of_ok hok
  exact ⟨hrun, gathers_of_unify (by decide) (by decide +kernel) (by decide) _ _
    (by decide +kernel) hrun⟩

end Conversion

end SchemaGraph
