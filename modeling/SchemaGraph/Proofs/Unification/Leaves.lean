import SchemaGraph.Conversion.Unification
import SchemaGraph.Proofs.Graph.Acceptance

/-!
This module contains the leaves that a unification works on. Opening unions and nullables loses
nothing: a value that one of the given types accepts is accepted by a leaf, or it is null and a
nullable was opened. The leaves are joined to members, records or maps first.
-/

namespace SchemaGraph

namespace Graph

variable {M : Moments} {g g' : Graph} {h : Handle} {value : Json}

theorem opened_succ (depth : Nat) (shape : Shape) : g.shape? h = some shape →
    g.opened (depth + 1) h =
      match shape with
      | .union members => members.flatMap (g.opened depth)
      | .nullable inner => (h, .nullable inner) :: g.opened depth inner
      | shape => [(h, shape)] := by
  intro hshape
  simp only [opened, hshape]
  cases shape with
  | _ => rfl

theorem shape?_of_mem_opened {depth : Nat} {leaf : Leaf} (hleaf : leaf ∈ g.opened depth h) :
    g.shape? leaf.1 = some leaf.2 ∧ ∀ members, leaf.2 ≠ .union members := by
  induction depth generalizing h with
  | zero => cases hleaf
  | succ depth ih =>
    cases hshape : g.shape? h with
    | none =>
      unfold opened at hleaf
      rw [hshape] at hleaf
      cases hleaf
    | some shape =>
      rw [opened_succ depth _ hshape] at hleaf
      cases shape with
      | union members =>
        obtain ⟨member, -, hmember⟩ := List.mem_flatMap.1 hleaf
        exact ih hmember
      | nullable inner =>
        rcases List.mem_cons.1 hleaf with rfl | hinner
        . exact ⟨hshape, by simp⟩
        . exact ih hinner
      | _ =>
        rw [List.mem_singleton.1 hleaf]
        exact ⟨hshape, by simp⟩

theorem accepts_opened (hg : g.Sound) (hevolves : g.Evolves g') {depth : Nat}
    (hdepth : h.index < depth) (hhas : g.Has h) (haccepts : Accepts M g' h value) :
    (value = .null ∧ ∃ leaf ∈ g.opened depth h, ∃ inner, leaf.2 = .nullable inner) ∨
      ∃ leaf ∈ g.opened depth h, (∀ inner, leaf.2 ≠ .nullable inner) ∧
        Accepts M g' leaf.1 value := by
  induction depth generalizing h with
  | zero => cases hdepth
  | succ depth ih =>
    obtain ⟨shape, hshape⟩ := has_iff.1 hhas
    have hinside := hg.inside hshape
    have hdescends := hg.descends hshape
    rw [opened_succ depth _ hshape]
    cases shape with
    | union members =>
      obtain ⟨member, hmember, hvalue⟩ :=
        haccepts.fits (hevolves.shape? hshape rfl)
      -- Members are older than their union, so the depth is enough for them.
      have hlt : member.index < h.index := hdescends member hmember
      rcases ih (by omega) (hinside member hmember) hvalue with
        ⟨hnull, leaf, hleaf, hnullable⟩ | ⟨leaf, hleaf, hplain⟩
      . exact Or.inl ⟨hnull, leaf, List.mem_flatMap.2 ⟨member, hmember, hleaf⟩, hnullable⟩
      . exact Or.inr ⟨leaf, List.mem_flatMap.2 ⟨member, hmember, hleaf⟩, hplain⟩
    | nullable inner =>
      have hmem : inner ∈ (Shape.nullable inner).nested := List.mem_singleton_self _
      rcases haccepts.fits (hevolves.shape? hshape rfl) with hnull | hvalue
      . exact Or.inl ⟨hnull, _, List.mem_cons_self .., inner, rfl⟩
      . have hlt : inner.index < h.index := hdescends inner hmem
        rcases ih (by omega) (hinside inner hmem) hvalue with
          ⟨hnull, leaf, hleaf, hnullable⟩ | ⟨leaf, hleaf, hplain⟩
        . exact Or.inl ⟨hnull, leaf, List.mem_cons_of_mem _ hleaf, hnullable⟩
        . exact Or.inr ⟨leaf, List.mem_cons_of_mem _ hleaf, hplain⟩
    | _ => exact Or.inr ⟨_, List.mem_singleton_self _, by simp, haccepts⟩

theorem shape?_of_mem_leaves {hs : List Handle} {leaf : Leaf} (hleaf : leaf ∈ g.leaves hs) :
    g.shape? leaf.1 = some leaf.2 ∧ ∀ members, leaf.2 ≠ .union members := by
  obtain ⟨h, -, hopened⟩ := List.mem_flatMap.1 hleaf
  exact shape?_of_mem_opened hopened

theorem accepts_leaves (hg : g.Sound) (hevolves : g.Evolves g') {hs : List Handle}
    (hhas : ∀ h ∈ hs, g.Has h) (hmem : h ∈ hs) (haccepts : Accepts M g' h value) :
    (value = .null ∧ ∃ leaf ∈ g.leaves hs, ∃ inner, leaf.2 = .nullable inner) ∨
      ∃ leaf ∈ g.leaves hs, (∀ inner, leaf.2 ≠ .nullable inner) ∧ Accepts M g' leaf.1 value := by
  have hlt : h.index < g.size + 1 := Nat.lt_succ_of_lt (hhas h hmem)
  rcases accepts_opened hg hevolves hlt (hhas h hmem) haccepts with
    ⟨hnull, leaf, hleaf, hnullable⟩ | ⟨leaf, hleaf, hplain⟩
  . exact Or.inl ⟨hnull, leaf, List.mem_flatMap.2 ⟨h, hmem, hleaf⟩, hnullable⟩
  . exact Or.inr ⟨leaf, List.mem_flatMap.2 ⟨h, hmem, hleaf⟩, hplain⟩

end Graph

namespace Leaves

variable {leaves : List Leaf} {leaf : Leaf}

theorem has_iff {kind : Primitive} :
    has leaves kind = true ↔ ∃ leaf ∈ leaves, leaf.2 = .primitive kind := by
  simp [has, List.any_eq_true]

theorem hasString_iff : hasString leaves = true ↔ ∃ leaf ∈ leaves, leaf.2 = .string := by
  simp [hasString, List.any_eq_true]

theorem hasNull_of_primitive (hleaf : leaf ∈ leaves) (hshape : leaf.2 = .primitive .null) :
    hasNull leaves = true := by
  refine List.any_eq_true.2 ⟨leaf, hleaf, ?_⟩
  rw [hshape]

theorem hasNull_of_nullable {inner : Handle} (hleaf : leaf ∈ leaves)
    (hshape : leaf.2 = .nullable inner) : hasNull leaves = true := by
  refine List.any_eq_true.2 ⟨leaf, hleaf, ?_⟩
  rw [hshape]

theorem mem_maps_iff {h : Handle} :
    h ∈ maps leaves ↔ ∃ values, (h, .map values) ∈ leaves := by
  unfold maps
  rw [mem_distinct, List.mem_filterMap]
  constructor
  . rintro ⟨⟨k, shape⟩, hmem, hk⟩
    cases shape with
    | map values =>
      cases hk
      exact ⟨values, hmem⟩
    | _ => cases hk
  . rintro ⟨values, hmem⟩
    exact ⟨_, hmem, rfl⟩

theorem mem_records_iff {h : Handle} :
    h ∈ records leaves ↔ ∃ fields, (h, .record fields) ∈ leaves := by
  unfold records
  rw [mem_distinct, List.mem_filterMap]
  constructor
  . rintro ⟨⟨k, shape⟩, hmem, hk⟩
    cases shape with
    | record fields =>
      cases hk
      exact ⟨fields, hmem⟩
    | _ => cases hk
  . rintro ⟨fields, hmem⟩
    exact ⟨_, hmem, rfl⟩

theorem mem_items_iff {items : Handle} :
    items ∈ Leaves.items leaves ↔ ∃ h, (h, .array items) ∈ leaves := by
  unfold Leaves.items
  rw [List.mem_filterMap]
  constructor
  . rintro ⟨⟨k, shape⟩, hmem, hk⟩
    cases shape with
    | array items' =>
      cases hk
      exact ⟨k, hmem⟩
    | _ => cases hk
  . rintro ⟨h, hmem⟩
    exact ⟨_, hmem, rfl⟩

theorem mem_enums_iff {cases : List String} :
    cases ∈ enums leaves ↔ ∃ h, (h, .enum cases) ∈ leaves := by
  unfold enums
  rw [List.mem_filterMap]
  constructor
  . rintro ⟨⟨k, shape⟩, hmem, hk⟩
    cases shape with
    | enum cases' =>
      cases hk
      exact ⟨k, hmem⟩
    | _ => cases hk
  . rintro ⟨h, hmem⟩
    exact ⟨_, hmem, rfl⟩

end Leaves

namespace Unification

open Effect

def otherMembers (unify : Unify) (leaves : List Leaf) (hint : NameHint) (loc : Location)
    (object : List Handle) : Effect (List Handle) := do
  let scalars ← primitives leaves [.bool, .integer, .double]
  let strings ← joinStrings leaves hint
  let moments ← primitives leaves [.date, .time, .dateTime]
  let enums ← joinEnums (Leaves.enums leaves) hint
  let arrays ← joinArrays unify (Leaves.items leaves) hint loc
  return object ++ scalars ++ strings ++ moments ++ enums ++ arrays

theorem members_eq (unify : Unify) (leaves : List Leaf) (hint : NameHint) (loc : Location) :
    members unify leaves hint loc =
      if Leaves.maps leaves = [] then
        joinRecords unify (Leaves.records leaves) hint loc >>= otherMembers unify leaves hint loc
      else joinMaps unify (Leaves.maps leaves) hint loc >>= otherMembers unify leaves hint loc :=
  rfl

end Unification

end SchemaGraph
