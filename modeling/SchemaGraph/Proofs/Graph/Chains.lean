import Mathlib.Data.Finset.Card
import SchemaGraph.Proofs.Graph.Reachability
import SchemaGraph.Proofs.Unification.Kinds
import SchemaGraph.Proofs.Unification.Upkeep

/-!
This module contains the chains of steps into a type: into an array, a map or a record, and so on
from what is inside. If no record or map on the way lies on a cycle, then no type lies on one, the
types below become fewer with each step, and so no chain has more steps than the graph has nodes.
-/

namespace SchemaGraph

namespace Graph

/--
A chain of so many steps leads from the type `h` into a type inside it. To open unions and nullables
on the way is no step.
-/
inductive Chain (g : Graph) (h : Handle) : Nat → Handle → Prop where
  | start : Chain g h 0 h
  | step {n : Nat} {k l child : Handle} {shape : Shape} (hchain : Chain g h n k)
    (hoffers : g.Offers k l) (hshape : g.shape? l = some shape) (hmem : child ∈ shape.contents) :
    Chain g h (n + 1) child

/--
A type is finite: below it every map has its values, and no record or map lies on a cycle.
-/
structure Finite (g : Graph) (h : Handle) : Prop where
  complete {k} : g.Reaches h k → g.shape? k ≠ some (.map .pending)
  acyclic {k shape} : g.Reaches h k → g.shape? k = some shape → shape.isObject = true →
    ¬Relation.TransGen g.Refers k k

open Classical in
noncomputable def below (g : Graph) (h : Handle) : Finset Nat :=
  (Finset.range g.size).filter fun index => Relation.TransGen g.Refers h ⟨index⟩

variable {g g' : Graph} {h k l : Handle} {shape : Shape} {n : Nat}

theorem Offers.reaches (hoffers : g.Offers h k) : g.Reaches h k := by
  induction hoffers with
  | itself => exact .refl
  | member hshape hmem _ ih => exact .head ((refers_iff hshape).2 hmem) ih
  | inner hshape _ ih =>
    exact .head ((refers_iff hshape).2 (List.mem_singleton_self _)) ih

theorem Grows.offers_iff (hg : g.Grows g') (hsound : g.Sound) (hhas : g.Has h) :
    g'.Offers h k ↔ g.Offers h k := by
  constructor
  . intro hoffers
    induction hoffers with
    | itself => exact .itself
    | member hshape hmem _ ih =>
      rw [hg.shape?_eq hhas] at hshape
      exact .member hshape hmem (ih (hsound.inside hshape _ hmem))
    | inner hshape _ ih =>
      rw [hg.shape?_eq hhas] at hshape
      exact .inner hshape (ih (hsound.inside hshape _ (List.mem_singleton_self _)))
  . intro hoffers
    clear hhas
    induction hoffers with
    | itself => exact .itself
    | member hshape hmem _ ih => exact .member (hg _ _ hshape) hmem ih
    | inner hshape _ ih => exact .inner (hg _ _ hshape) ih

theorem Sound.has_of_reaches (hg : g.Sound) (hhas : g.Has h) (hreaches : g.Reaches h k) :
    g.Has k := by
  induction hreaches with
  | refl => exact hhas
  | tail _ hchild _ => exact hg.refers_has hchild

theorem transGen_of_step (hoffers : g.Offers h l) (hshape : g.shape? l = some shape)
    (hmem : k ∈ shape.contents) : Relation.TransGen g.Refers h k :=
  .tail' hoffers.reaches ((refers_iff hshape).2 (Shape.mem_children_of_mem_contents hmem))

theorem Chain.reaches (hchain : g.Chain h n k) : g.Reaches h k := by
  induction hchain with
  | start => exact .refl
  | step _ hoffers hshape hmem ih =>
    exact ih.trans (transGen_of_step hoffers hshape hmem).to_reflTransGen

theorem Sound.cases_of_transGen (hg : g.Sound) (hbelow : Relation.TransGen g.Refers h k) :
    k.index < h.index ∨ ∃ l shape, g.Reaches h l ∧ g.shape? l = some shape ∧
      shape.isObject = true ∧ Relation.TransGen g.Refers l k := by
  induction hbelow using Relation.TransGen.head_induction_on with
  | single hchild =>
    obtain ⟨shape, hshape, hmem⟩ := exists_of_refers hchild
    cases hobject : shape.isObject with
    | false => exact Or.inl (hg.lt_of_nests ⟨shape, hshape, hobject, hmem⟩)
    | true => exact Or.inr ⟨_, shape, .refl, hshape, hobject, .single hchild⟩
  | head hchild hrest ih =>
    obtain ⟨shape, hshape, hmem⟩ := exists_of_refers hchild
    cases hobject : shape.isObject with
    | true => exact Or.inr ⟨_, shape, .refl, hshape, hobject, .head hchild hrest⟩
    | false =>
      have hlt := hg.lt_of_nests ⟨shape, hshape, hobject, hmem⟩
      rcases ih with hlower | ⟨l, shape', hreaches, hobject'⟩
      . exact Or.inl (Nat.lt_trans hlower hlt)
      . exact Or.inr ⟨l, shape', .head hchild hreaches, hobject'⟩

theorem Finite.not_cyclic (hfinite : g.Finite h) (hg : g.Sound) (hreaches : g.Reaches h k) :
    ¬Relation.TransGen g.Refers k k := by
  intro hcycle
  rcases hg.cases_of_transGen hcycle with hlt | ⟨l, shape, hl, hshape, hobject, hback⟩
  . exact Nat.lt_irrefl _ hlt
  . exact hfinite.acyclic (hreaches.trans hl) hshape hobject (hback.trans_left hl)

theorem mem_below {index : Nat} :
    index ∈ g.below h ↔ index < g.size ∧ Relation.TransGen g.Refers h ⟨index⟩ := by
  unfold below
  classical
  rw [Finset.mem_filter, Finset.mem_range]

theorem Finite.card_below_lt (hfinite : g.Finite h) (hg : g.Sound) (hreaches : g.Reaches h k)
    (hbelow : Relation.TransGen g.Refers k l) : (g.below l).card < (g.below k).card := by
  apply Finset.card_lt_card
  rw [Finset.ssubset_iff_of_subset]
  . refine ⟨l.index, mem_below.2 ⟨?_, hbelow⟩, fun hself => ?_⟩
    . obtain ⟨_, -, hchild⟩ := Relation.TransGen.tail'_iff.1 hbelow
      exact hg.refers_has hchild
    . exact hfinite.not_cyclic hg (hreaches.trans hbelow.to_reflTransGen) (mem_below.1 hself).2
  . intro index hindex
    exact mem_below.2 ⟨(mem_below.1 hindex).1, hbelow.trans (mem_below.1 hindex).2⟩

theorem Finite.chain_le (hfinite : g.Finite h) (hg : g.Sound) (hchain : g.Chain h n k) :
    n ≤ g.size := by
  have hsum : n + (g.below k).card ≤ (g.below h).card := by
    induction hchain with
    | start => omega
    | step hchain hoffers hshape hmem ih =>
      have hlt := hfinite.card_below_lt hg hchain.reaches (transGen_of_step hoffers hshape hmem)
      omega
  have hcard : (g.below h).card ≤ g.size := by
    rw [← Finset.card_range g.size]
    exact Finset.card_le_card fun index hindex => Finset.mem_range.2 (mem_below.1 hindex).1
  omega

theorem not_cyclic_of_rank (rank : Handle → Nat)
    (hrank : ∀ h k, g.Refers h k → rank k < rank h) (k : Handle) :
    ¬Relation.TransGen g.Refers k k := by
  -- A cycle would come back to the rank that it has left.
  have hlower : ∀ l, Relation.TransGen g.Refers k l → rank l < rank k := by
    intro l hbelow
    induction hbelow with
    | single hchild => exact hrank _ _ hchild
    | tail _ hchild ih => exact Nat.lt_trans (hrank _ _ hchild) ih
  exact fun hcycle => Nat.lt_irrefl _ (hlower k hcycle)

end Graph

end SchemaGraph
