import SchemaGraph.Proofs.Graph.Requests

/-!
This module contains the proof that a graph only grows and that every slot is filled in at most
once. No request takes a node away or changes its kind. The one thing that ever happens to the shape
of a node is that a request fills in its open slot, and that shape is final.
-/

namespace SchemaGraph

namespace Graph

variable {g : Graph} {request : Request}

theorem grows_share (g : Graph) (key : Key) (shape : Shape) (hint : Option NameHint) :
    g.Grows (g.share key shape hint).2 := by
  unfold share
  split
  . cases hint with
    | none => exact Grows.refl g
    | some hint => exact grows_addHint g _ hint
  . exact grows_push g _

theorem size_share_le (g : Graph) (key : Key) (shape : Shape) (hint : Option NameHint) :
    (g.share key shape hint).2.size ≤ g.size + 1 := by
  unfold share
  split
  . cases hint <;> simp
  . simp [push, size]

theorem fills_of_fills? {target : Handle} {shape : Shape}
    (hfills : request.fills? = some (target, shape))
    (hopen : g.shape? target = some shape.opened) :
    g.Fills target shape (g.setShape target shape) := by
  obtain ⟨hopened, hbecomes, -⟩ := Request.becomes_of_fills? hfills
  exact fills_setShape hopen hopened hbecomes

section Step

variable {r : Except Fault Handle × Graph}

theorem Performs.evolves (hr : g.Performs request r) : g.Evolves r.2 := by
  cases hr with
  | share hint _ => exact (grows_share g _ _ hint).evolves
  | add hint _ => exact (grows_push g _).evolves
  | keep _ _ _ _ => exact Evolves.refl g
  | fill hfills hopen => exact (fills_of_fills? hfills hopen).evolves
  | refuse _ _ => exact Evolves.refl g

theorem Performs.grows (hr : g.Performs request r) (hfills : request.fills? = none) :
    g.Grows r.2 := by
  cases hr with
  | share hint _ => exact grows_share g _ _ hint
  | add hint _ => exact grows_push g _
  | keep _ _ _ _ => exact Grows.refl g
  | fill hfills' _ => cases hfills.symm.trans hfills'
  | refuse _ _ => exact Grows.refl g

theorem Performs.size_le (hr : g.Performs request r) :
    g.size ≤ r.2.size ∧ r.2.size ≤ g.size + 1 := by
  cases hr with
  | share hint _ => exact ⟨le_size_share g _ _ hint, size_share_le g _ _ hint⟩
  | add hint _ => simp
  | keep _ _ _ _ => simp
  | fill _ _ => simp
  | refuse _ _ => simp

end Step

theorem evolves_after (g : Graph) (requests : List Request) : g.Evolves (g.after requests) := by
  induction requests generalizing g with
  | nil => exact Evolves.refl g
  | cons request requests ih => exact (g.performs request).evolves.trans (ih _)

theorem size_le_after (g : Graph) (requests : List Request) : g.size ≤ (g.after requests).size := by
  induction requests generalizing g with
  | nil => exact Nat.le_refl _
  | cons request requests ih => exact Nat.le_trans (g.performs request).size_le.1 (ih _)

theorem Performs.of_changed {r : Except Fault Handle × Graph} (hr : g.Performs request r)
    {h : Handle} {shape : Shape} (hshape : g.shape? h = some shape)
    (hchanged : r.2.shape? h ≠ some shape) :
    ∃ filled, request.fills? = some (h, filled) ∧ shape = filled.opened ∧ r.1 = .ok h ∧
      r.2.shape? h = some filled := by
  cases hr with
  | share hint _ => exact absurd (grows_share g _ _ hint h shape hshape) hchanged
  | add hint _ => exact absurd (grows_push g _ h shape hshape) hchanged
  | keep _ _ _ _ => exact absurd hshape hchanged
  | refuse _ _ => exact absurd hshape hchanged
  | @fill target filled hfills hopen =>
    have hnow := (fills_of_fills? hfills hopen).shape? h
    split at hnow
    . next heq =>
      subst heq
      rw [hopen] at hshape
      cases hshape
      exact ⟨filled, hfills, rfl, rfl, hnow⟩
    . exact absurd (hnow.trans hshape) hchanged

/--
Take any request in a history of any graph, with whatever handles. The graph does not shrink, and
every node keeps its shape or has its open slot filled in. A shape changes only when the request
asks to fill in that very node and succeeds, and it never changes again. A request to fill in a node
succeeds if and only if the node is there, of the right kind and open, and otherwise the graph is as
before. All other requests leave the shapes alone and add one node at most.
-/
theorem assigned_once (g : Graph) (earlier later : List Request) (request : Request) :
    let before := g.after earlier
    let answer := (before.perform request).1
    let now := (before.perform request).2
    before.size ≤ now.size ∧ now.size ≤ (now.after later).size ∧
    before.Evolves now ∧ now.Evolves (now.after later) ∧
    (∀ h shape, before.shape? h = some shape → now.shape? h ≠ some shape →
      ∃ filled, request.fills? = some (h, filled) ∧ shape = filled.opened ∧ answer = .ok h ∧
        now.shape? h = some filled ∧ (now.after later).shape? h = some filled) ∧
    (∀ target filled, request.fills? = some (target, filled) →
      ((∃ h, answer = .ok h) ↔ before.shape? target = some filled.opened) ∧
      (∀ fault, answer = .error fault → now = before) ∧ now.size = before.size) ∧
    (request.fills? = none → before.Grows now ∧ now.size ≤ before.size + 1) := by
  intro before answer now
  have hperforms : before.Performs request (before.perform request) := before.performs request
  refine ⟨hperforms.size_le.1, now.size_le_after later, hperforms.evolves,
    now.evolves_after later, ?_, ?_, ?_⟩
  . intro h shape hshape hchanged
    obtain ⟨filled, hfills, hopened, hanswer, hnow⟩ := hperforms.of_changed hshape hchanged
    obtain ⟨-, -, hclosed⟩ := Request.becomes_of_fills? hfills
    exact ⟨filled, hfills, hopened, hanswer, hnow,
      (now.evolves_after later).shape? hnow hclosed⟩
  . intro target filled hfills
    have hperform := perform_of_fills? before hfills
    by_cases hopen : before.shape? target = some filled.opened
    . rw [if_pos hopen] at hperform
      have hanswer : answer = .ok target := congrArg Prod.fst hperform
      have hnow : now = before.setShape target filled := congrArg Prod.snd hperform
      refine ⟨iff_of_true ⟨target, hanswer⟩ hopen, ?_, by rw [hnow, size_setShape]⟩
      intro fault hfault
      cases hanswer.symm.trans hfault
    . rw [if_neg hopen] at hperform
      have hanswer : answer = .error (.noOpenSlot target) := congrArg Prod.fst hperform
      have hnow : now = before := congrArg Prod.snd hperform
      refine ⟨iff_of_false ?_ hopen, fun _ _ => hnow, by rw [hnow]⟩
      rintro ⟨h, hok⟩
      cases hanswer.symm.trans hok
  . intro hfills
    exact ⟨hperforms.grows hfills, hperforms.size_le.2⟩

end Graph

end SchemaGraph
