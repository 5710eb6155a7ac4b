import Mathlib.Algebra.BigOperators.Group.Finset.Basic
import Mathlib.Logic.Relation
import SchemaGraph.Graph.Description
import SchemaGraph.Proofs.Graph.Growth

/-!
This module contains the proof that the walk through a graph collects exactly what can be reached
from its start. Each handle is taken up once for the start and once for each place inside a node
that has been seen, so the walk does not run out of steps.
-/

namespace SchemaGraph

namespace Graph

def Refers (g : Graph) (h child : Handle) : Prop :=
  child ∈ g.children h

def Reaches (g : Graph) : Handle → Handle → Prop :=
  Relation.ReflTransGen g.Refers

def unseen (g : Graph) (seen : List Handle) : Finset Nat :=
  (Finset.range g.size).filter fun index => ⟨index⟩ ∉ seen

def steps (g : Graph) (pending seen : List Handle) : Nat :=
  pending.length + ∑ index ∈ g.unseen seen, (g.children ⟨index⟩).length

structure Walking (g : Graph) (start : Handle) (pending seen : List Handle) : Prop where
  reaches {h} : h ∈ seen ∨ h ∈ pending → g.Reaches start h
  start : start ∈ seen ∨ start ∈ pending
  closed {h child} : h ∈ seen → g.Refers h child → child ∈ seen ∨ child ∈ pending

variable {g : Graph} {h start : Handle} {pending seen : List Handle}

theorem refers_iff {child : Handle} {shape : Shape} (hshape : g.shape? h = some shape) :
    g.Refers h child ↔ child ∈ shape.children := by
  unfold Refers children
  rw [hshape]

theorem exists_of_refers {child : Handle} (hchild : g.Refers h child) :
    ∃ shape, g.shape? h = some shape ∧ child ∈ shape.children := by
  unfold Refers children at hchild
  split at hchild
  . cases hchild
  . next hshape => exact ⟨_, hshape, hchild⟩

theorem unseen_cons (g : Graph) (h : Handle) (seen : List Handle) :
    g.unseen (h :: seen) = (g.unseen seen).erase h.index := by
  ext index
  have hindex : (⟨index⟩ : Handle) = h ↔ index = h.index := by
    cases h
    simp
  simp only [unseen, Finset.mem_filter, Finset.mem_erase, List.mem_cons, not_or, hindex]
  tauto

theorem children_of_not_has (hhas : ¬g.Has h) : g.children h = [] := by
  unfold children
  cases hshape : g.shape? h with
  | none => rfl
  | some shape => exact absurd (has_of_shape? hshape) hhas

theorem steps_cons (h : Handle) (pending seen : List Handle) :
    g.steps (h :: pending) seen = g.steps pending seen + 1 := by
  unfold steps
  rw [List.length_cons, Nat.add_right_comm]

theorem steps_children (pending : List Handle) (hseen : h ∉ seen) :
    g.steps (g.children h ++ pending) (h :: seen) = g.steps pending seen := by
  unfold steps
  rw [unseen_cons, List.length_append]
  by_cases hhas : g.Has h
  . have hunseen : h.index ∈ g.unseen seen :=
      Finset.mem_filter.2 ⟨Finset.mem_range.2 hhas, hseen⟩
    have hsum : (g.children h).length + _ = _ :=
      Finset.add_sum_erase _ (fun index => (g.children ⟨index⟩).length) hunseen
    omega
  . have hunseen : h.index ∉ g.unseen seen :=
      fun hmem => hhas (Finset.mem_range.1 (Finset.mem_filter.1 hmem).1)
    rw [children_of_not_has hhas, Finset.erase_eq_of_notMem hunseen, List.length_nil, Nat.zero_add]

theorem foldl_add_eq {α : Type} (as : List α) (f : α → Nat) (n : Nat) :
    as.foldl (fun count a => count + f a) n =
      n + ∑ index ∈ Finset.range as.length, (as[index]?.map f).getD 0 := by
  induction as generalizing n with
  | nil => rfl
  | cons a rest ih =>
    rw [List.foldl_cons, ih, List.length_cons, Finset.sum_range_succ', Nat.add_right_comm,
      Nat.add_assoc]
    rfl

theorem length_children (g : Graph) (h : Handle) :
    (g.children h).length =
      (g.nodes.toList[h.index]?.map fun node => node.shape.children.length).getD 0 := by
  unfold children shape? node?
  rw [Array.getElem?_toList]
  cases g.nodes[h.index]? with
  | none => rfl
  | some node => rfl

theorem edges_eq (g : Graph) :
    g.edges = ∑ index ∈ Finset.range g.size, (g.children ⟨index⟩).length := by
  unfold edges
  rw [← Array.foldl_toList, foldl_add_eq, Nat.zero_add, Array.length_toList]
  exact Finset.sum_congr rfl fun index _ => (g.length_children ⟨index⟩).symm

theorem steps_start (g : Graph) (start : Handle) : g.steps [start] [] = g.edges + 1 := by
  have hunseen : g.unseen [] = Finset.range g.size :=
    Finset.filter_true_of_mem fun _ _ => List.not_mem_nil
  unfold steps
  rw [hunseen, ← edges_eq, List.length_singleton, Nat.add_comm]

theorem Walking.skip {first : Handle} (h : g.Walking start (first :: pending) seen)
    (hseen : first ∈ seen) : g.Walking start pending seen := by
  have hfirst : ∀ {k}, k ∈ seen ∨ k ∈ first :: pending → k ∈ seen ∨ k ∈ pending := by
    rintro k (hk | hk)
    . exact Or.inl hk
    . rcases List.mem_cons.1 hk with rfl | hk
      . exact Or.inl hseen
      . exact Or.inr hk
  refine ⟨?_, hfirst h.start, fun hk hchild => hfirst (h.closed hk hchild)⟩
  rintro k hk
  exact h.reaches (hk.imp_right (List.mem_cons_of_mem _))

theorem Walking.next {first : Handle} (h : g.Walking start (first :: pending) seen) :
    g.Walking start (g.children first ++ pending) (first :: seen) := by
  have hfirst : ∀ {k}, k ∈ seen ∨ k ∈ first :: pending →
      k ∈ first :: seen ∨ k ∈ g.children first ++ pending := by
    rintro k (hk | hk)
    . exact Or.inl (List.mem_cons_of_mem _ hk)
    . rcases List.mem_cons.1 hk with rfl | hk
      . exact Or.inl (List.mem_cons_self ..)
      . exact Or.inr (List.mem_append_right _ hk)
  have hreaches := h.reaches (Or.inr (List.mem_cons_self ..))
  refine ⟨?_, hfirst h.start, ?_⟩
  . rintro k (hk | hk)
    . rcases List.mem_cons.1 hk with rfl | hk
      . exact hreaches
      . exact h.reaches (Or.inl hk)
    . rcases List.mem_append.1 hk with hk | hk
      . exact hreaches.tail hk
      . exact h.reaches (Or.inr (List.mem_cons_of_mem _ hk))
  . intro k child hk hchild
    rcases List.mem_cons.1 hk with rfl | hk
    . exact Or.inr (List.mem_append_left _ hchild)
    . exact hfirst (h.closed hk hchild)

theorem Walking.mem_iff (h : g.Walking start [] seen) {k : Handle} :
    k ∈ seen ↔ g.Reaches start k := by
  constructor
  . exact fun hk => h.reaches (Or.inl hk)
  . intro hk
    induction hk with
    | refl => exact h.start.resolve_right List.not_mem_nil
    | tail _ hchild ih => exact (h.closed ih hchild).resolve_right List.not_mem_nil

theorem Walking.mem_walk_iff (h : g.Walking start pending seen) {depth : Nat}
    (hdepth : g.steps pending seen < depth) {k : Handle} :
    k ∈ g.walk depth pending seen ↔ g.Reaches start k := by
  induction depth generalizing pending seen with
  | zero => cases hdepth
  | succ depth ih =>
    cases pending with
    | nil =>
      unfold walk
      rw [List.mem_reverse]
      exact h.mem_iff
    | cons first pending =>
      rw [steps_cons] at hdepth
      unfold walk
      split
      . next hseen => exact ih (h.skip hseen) (by omega)
      . next hseen =>
        apply ih h.next
        rw [steps_children pending hseen]
        omega

theorem mem_reachable_iff {k : Handle} : k ∈ g.reachable start ↔ g.Reaches start k := by
  have hstart : g.Walking start [start] [] := by
    refine ⟨?_, Or.inr (List.mem_singleton_self _), fun hmem => nomatch hmem⟩
    rintro k (hk | hk)
    . cases hk
    . rw [List.mem_singleton.1 hk]
      exact .refl
  apply hstart.mem_walk_iff
  rw [steps_start]
  omega

end Graph

end SchemaGraph
