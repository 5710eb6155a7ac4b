import SchemaGraph.Proofs.Reordering.Mirrors
import SchemaGraph.Proofs.Unification.Leaves

/-!
This module contains the leaves that two unifications side by side work on. Leaves without anything
inside count as a set, because a unification only asks whether they are there. The others correspond
to each other one by one.
-/

namespace SchemaGraph

open Relator

def Shape.isPlain : Shape → Bool
  | .primitive _ => true
  | .string => true
  | _ => false

def Leaves.filled (leaves : List Leaf) : List Leaf :=
  leaves.filter fun leaf => !leaf.2.isPlain

structure Leaf.Alike (R : Correspondence) (leaf leaf' : Leaf) : Prop where
  related : R leaf.1 leaf'.1
  shape : leaf.2.Alike R leaf'.2

structure Leaves.Alike (R : Correspondence) (leaves leaves' : List Leaf) : Prop where
  plain shape : shape.isPlain = true →
    ((∃ leaf ∈ leaves, leaf.2 = shape) ↔ ∃ leaf ∈ leaves', leaf.2 = shape)
  filled : List.Forall₂ (Leaf.Alike R) (Leaves.filled leaves) (Leaves.filled leaves')

variable {R R' : Correspondence} {g g' : Graph} {h k : Handle} {shape shape' : Shape}
  {leaves leaves' : List Leaf}

theorem Shape.Alike.isPlain (h : shape.Alike R shape') : shape'.isPlain = shape.isPlain := by
  cases h with
  | _ => rfl

theorem Shape.Alike.eq_of_isPlain (h : shape.Alike R shape') (hplain : shape.isPlain = true) :
    shape = shape' := by
  cases h with
  | primitive kind => rfl
  | string => rfl
  | _ => cases hplain

theorem Leaves.hasNull_iff : Leaves.hasNull leaves = true ↔
    (∃ leaf ∈ leaves, leaf.2 = .primitive .null) ∨
      ∃ leaf ∈ Leaves.filled leaves, ∃ inner, leaf.2 = .nullable inner := by
  constructor
  . intro hnull
    obtain ⟨⟨handle, shape⟩, hleaf, hshape⟩ := List.any_eq_true.1 hnull
    dsimp only at hshape
    split at hshape
    . exact Or.inl ⟨_, hleaf, rfl⟩
    . exact Or.inr ⟨_, List.mem_filter.2 ⟨hleaf, rfl⟩, _, rfl⟩
    . cases hshape
  . rintro (⟨leaf, hleaf, hshape⟩ | ⟨leaf, hleaf, inner, hshape⟩)
    . exact hasNull_of_primitive hleaf hshape
    . exact hasNull_of_nullable (List.mem_of_mem_filter hleaf) hshape

theorem Shape.alike_of_isPlain (hplain : shape.isPlain = true) : shape.Alike R shape := by
  cases shape with
  | primitive kind => exact .primitive kind
  | string => exact .string
  | _ => cases hplain

theorem Graph.takes_of_isPlain (hplain : shape.isPlain = true) : g.Takes shape := by
  cases shape with
  | primitive kind => exact ⟨fun _ hmem => (nomatch hmem), trivial⟩
  | string => exact ⟨fun _ hmem => (nomatch hmem), trivial⟩
  | _ => cases hplain

namespace Leaves.Alike

theorem imp (h : Leaves.Alike R leaves leaves') (hsub : ∀ h k, R h k → R' h k) :
    Leaves.Alike R' leaves leaves' :=
  ⟨h.plain, h.filled.imp fun _ _ hleaf => ⟨hsub _ _ hleaf.related, hleaf.shape.imp hsub⟩⟩

theorem of_forall₂ (h : List.Forall₂ (Leaf.Alike R) leaves leaves') :
    Leaves.Alike R leaves leaves' := by
  constructor
  . intro shape hplain
    constructor
    . rintro ⟨leaf, hleaf, rfl⟩
      obtain ⟨leaf', hleaf', halike⟩ := exists_of_mem_of_forall₂ h hleaf
      exact ⟨leaf', hleaf', (halike.shape.eq_of_isPlain hplain).symm⟩
    . rintro ⟨leaf', hleaf', rfl⟩
      obtain ⟨leaf, hleaf, halike⟩ := exists_of_mem_of_forall₂ h.flip hleaf'
      refine ⟨leaf, hleaf, halike.shape.eq_of_isPlain ?_⟩
      rwa [← halike.shape.isPlain]
  . apply List.rel_filter _ h
    intro leaf leaf' halike
    dsimp only
    rw [halike.shape.isPlain]

theorem symm (h : Leaves.Alike R leaves leaves') : Leaves.Alike (flip R) leaves' leaves := by
  refine ⟨fun shape hplain => (h.plain shape hplain).symm, ?_⟩
  exact (h.filled.imp fun _ _ hleaf => ⟨hleaf.related, hleaf.shape.symm⟩).flip

theorem has (h : Leaves.Alike R leaves leaves') (kind : Primitive) :
    Leaves.has leaves kind = Leaves.has leaves' kind := by
  rw [Bool.eq_iff_iff, has_iff, has_iff]
  exact h.plain _ rfl

theorem hasString (h : Leaves.Alike R leaves leaves') :
    Leaves.hasString leaves = Leaves.hasString leaves' := by
  rw [Bool.eq_iff_iff, hasString_iff, hasString_iff]
  exact h.plain _ rfl

theorem filterMap {α : Type} {r : α → α → Prop} {read : Leaf → Option α}
    (h : Leaves.Alike R leaves leaves')
    (hplain : ∀ leaf, leaf.2.isPlain = true → read leaf = none)
    (halike : ∀ leaf leaf', Leaf.Alike R leaf leaf' → Option.Rel r (read leaf) (read leaf')) :
    List.Forall₂ r (leaves.filterMap read) (leaves'.filterMap read) := by
  have hfilled : ∀ leaves : List Leaf,
      (Leaves.filled leaves).filterMap read = leaves.filterMap read := by
    intro leaves
    unfold Leaves.filled
    rw [List.filterMap_filter]
    congr 1
    funext leaf
    cases hleaf : leaf.2.isPlain with
    | true => exact (hplain leaf hleaf).symm
    | false => rfl
  rw [← hfilled leaves, ← hfilled leaves']
  exact List.rel_filterMap (fun _ _ hleaf => halike _ _ hleaf) h.filled

theorem maps (hR : BiUnique R) (h : Leaves.Alike R leaves leaves') :
    List.Forall₂ R (Leaves.maps leaves) (Leaves.maps leaves') := by
  apply forall₂_distinct hR
  apply h.filterMap
  . rintro ⟨handle, shape⟩ hplain
    cases shape with
    | map => cases hplain
    | _ => rfl
  . rintro ⟨handle, shape⟩ ⟨handle', shape'⟩ ⟨hrelated, hshape⟩
    cases hshape with
    | map => exact .some hrelated
    | openMap => exact .some hrelated
    | _ => exact .none

theorem records (hR : BiUnique R) (h : Leaves.Alike R leaves leaves') :
    List.Forall₂ R (Leaves.records leaves) (Leaves.records leaves') := by
  apply forall₂_distinct hR
  apply h.filterMap
  . rintro ⟨handle, shape⟩ hplain
    cases shape with
    | record => cases hplain
    | _ => rfl
  . rintro ⟨handle, shape⟩ ⟨handle', shape'⟩ ⟨hrelated, hshape⟩
    cases hshape with
    | record => exact .some hrelated
    | openRecord => exact .some hrelated
    | _ => exact .none

theorem items (h : Leaves.Alike R leaves leaves') :
    List.Forall₂ R (Leaves.items leaves) (Leaves.items leaves') := by
  apply h.filterMap
  . rintro ⟨handle, shape⟩ hplain
    cases shape with
    | array => cases hplain
    | _ => rfl
  . rintro ⟨handle, shape⟩ ⟨handle', shape'⟩ ⟨hrelated, hshape⟩
    cases hshape with
    | array hR => exact .some hR
    | _ => exact .none

theorem enums (h : Leaves.Alike R leaves leaves') :
    List.Forall₂ (fun cases cases' => ∀ text, text ∈ cases ↔ text ∈ cases')
      (Leaves.enums leaves) (Leaves.enums leaves') := by
  apply h.filterMap
  . rintro ⟨handle, shape⟩ hplain
    cases shape with
    | enum => cases hplain
    | _ => rfl
  . rintro ⟨handle, shape⟩ ⟨handle', shape'⟩ ⟨hrelated, hshape⟩
    cases hshape with
    | enum hcases => exact .some hcases
    | _ => exact .none

theorem exists_nullable (h : Leaves.Alike R leaves leaves')
    (hnullable : ∃ leaf ∈ Leaves.filled leaves, ∃ inner, leaf.2 = .nullable inner) :
    ∃ leaf' ∈ Leaves.filled leaves', ∃ inner', leaf'.2 = .nullable inner' := by
  obtain ⟨⟨handle, shape⟩, hleaf, inner, rfl⟩ := hnullable
  obtain ⟨⟨handle', shape'⟩, hleaf', -, halike⟩ := exists_of_mem_of_forall₂ h.filled hleaf
  cases halike with
  | nullable _ => exact ⟨_, hleaf', _, rfl⟩

theorem hasNull (h : Leaves.Alike R leaves leaves') :
    Leaves.hasNull leaves = Leaves.hasNull leaves' := by
  rw [Bool.eq_iff_iff, hasNull_iff, hasNull_iff]
  exact or_congr (h.plain _ rfl) ⟨h.exists_nullable, h.symm.exists_nullable⟩

end Leaves.Alike

namespace Graph.Mirrors

theorem opened (hm : g.Mirrors R g') {depth depth' : Nat} (hR : R h k) (hdepth : h.index < depth)
    (hdepth' : k.index < depth') :
    List.Forall₂ (Leaf.Alike R) (g.opened depth h) (g'.opened depth' k) := by
  induction depth generalizing depth' h k with
  | zero => cases hdepth
  | succ depth ih =>
    cases depth' with
    | zero => cases hdepth'
    | succ depth' =>
      obtain ⟨shape, shape', hshape, hshape', halike⟩ := hm.alike hR
      have hdescends := hm.tidy.descends hshape
      have hdescends' := hm.tidy'.descends hshape'
      rw [opened_succ depth _ hshape, opened_succ depth' _ hshape']
      cases halike with
      | union hmembers =>
        apply forall₂_flatMap hmembers
        intro member hmem member' hmem' hR'
        -- Members are older than their union, so the depth is enough for them.
        have hlt := hdescends member hmem
        have hlt' := hdescends' member' hmem'
        exact ih hR' (by omega) (by omega)
      | nullable hinner =>
        have hlt := hdescends _ (List.mem_singleton_self _)
        have hlt' := hdescends' _ (List.mem_singleton_self _)
        exact .cons ⟨hR, .nullable hinner⟩ (ih hinner (by omega) (by omega))
      | primitive kind => exact .cons ⟨hR, .primitive kind⟩ .nil
      | string => exact .cons ⟨hR, .string⟩ .nil
      | enum h => exact .cons ⟨hR, .enum h⟩ .nil
      | array h => exact .cons ⟨hR, .array h⟩ .nil
      | openMap => exact .cons ⟨hR, .openMap⟩ .nil
      | map h => exact .cons ⟨hR, .map h⟩ .nil
      | openRecord => exact .cons ⟨hR, .openRecord⟩ .nil
      | record h => exact .cons ⟨hR, .record h⟩ .nil

theorem opened_size (hm : g.Mirrors R g') (hR : R h k) :
    List.Forall₂ (Leaf.Alike R) (g.opened (g.size + 1) h) (g'.opened (g'.size + 1) k) :=
  hm.opened hR (Nat.lt_succ_of_lt (hm.has hR)) (Nat.lt_succ_of_lt (hm.symm.has hR))

theorem alike_leaves (hm : g.Mirrors R g') {hs ks : List Handle} (h : List.Forall₂ R hs ks) :
    Leaves.Alike R (g.leaves hs) (g'.leaves ks) :=
  .of_forall₂ (forall₂_flatMap h fun _ _ _ _ hR => hm.opened_size hR)

end Graph.Mirrors

end SchemaGraph
