import SchemaGraph.Proofs.Graph.Reachability

/-!
This module contains the proof that the description of a graph lists the handles in preorder. The
recursion visits a handle, then all that its children lead to, one child after the other. The walk
has a list of pending handles instead, and a handle may be pending at several places at a time. It
collects the same handles in the same order, whatever the graph looks like.
-/

namespace SchemaGraph

namespace Graph

/--
The depth-first recursion: visiting some handles, one after the other, when others are `seen`
already, visits those of `order` in this order. The last handle that is visited is the first one of
those seen then.
-/
inductive Visits (g : Graph) : List Handle → List Handle → List Handle → Prop where
  | nil (seen : List Handle) : Visits g [] seen []
  | known {h : Handle} {hs seen order : List Handle} (hseen : h ∈ seen)
    (hrest : Visits g hs seen order) : Visits g (h :: hs) seen order
  | first {h : Handle} {hs seen inner order : List Handle} (hseen : h ∉ seen)
    (hinner : Visits g (g.children h) (h :: seen) inner)
    (hrest : Visits g hs (inner.reverse ++ h :: seen) order) :
    Visits g (h :: hs) seen (h :: inner ++ order)

inductive Turn (g : Graph) : List Handle × List Handle → List Handle × List Handle → Prop where
  | skip {h : Handle} {pending seen : List Handle} (hseen : h ∈ seen) :
    Turn g (h :: pending, seen) (pending, seen)
  | take {h : Handle} {pending seen : List Handle} (hseen : h ∉ seen) :
    Turn g (h :: pending, seen) (g.children h ++ pending, h :: seen)

variable {g : Graph} {hs ks seen order order' : List Handle}

namespace Visits

theorem append (hhs : g.Visits hs seen order) (hks : g.Visits ks (order.reverse ++ seen) order') :
    g.Visits (hs ++ ks) seen (order ++ order') := by
  induction hhs with
  | nil seen => exact hks
  | known hseen _ ih => exact .known hseen (ih hks)
  | @first h hs seen inner order hseen hinner _ _ ih =>
    rw [List.append_assoc]
    refine .first hseen hinner (ih ?_)
    simpa using hks

theorem split (hvisits : g.Visits (hs ++ ks) seen order) :
    ∃ fore aft, order = fore ++ aft ∧ g.Visits hs seen fore ∧
      g.Visits ks (fore.reverse ++ seen) aft := by
  induction hs generalizing seen order with
  | nil => exact ⟨[], order, rfl, .nil seen, hvisits⟩
  | cons h hs ih =>
    cases hvisits with
    | known hseen hrest =>
      obtain ⟨fore, aft, rfl, hfore, haft⟩ := ih hrest
      exact ⟨fore, aft, rfl, .known hseen hfore, haft⟩
    | @first _ _ _ inner outer hseen hinner hrest =>
      obtain ⟨fore, aft, rfl, hfore, haft⟩ := ih hrest
      refine ⟨h :: inner ++ fore, aft, by simp, .first hseen hinner hfore, ?_⟩
      simpa using haft

theorem unique (hvisits : g.Visits hs seen order) (hvisits' : g.Visits hs seen order') :
    order' = order := by
  induction hvisits generalizing order' with
  | nil seen =>
    cases hvisits'
    rfl
  | known hseen _ ih =>
    cases hvisits' with
    | known _ hrest' => exact ih hrest'
    | first hseen' _ _ => exact absurd hseen hseen'
  | first hseen _ _ ihinner ihrest =>
    cases hvisits' with
    | known hseen' _ => exact absurd hseen' hseen
    | first _ hinner' hrest' =>
      cases ihinner hinner'
      cases ihrest hrest'
      rfl

theorem turns (hvisits : g.Visits hs seen order) (pending : List Handle) :
    Relation.ReflTransGen g.Turn (hs ++ pending, seen) (pending, order.reverse ++ seen) := by
  induction hvisits generalizing pending with
  | nil seen => exact .refl
  | known hseen _ ih => exact .head (.skip hseen) (ih pending)
  | @first h hs seen inner order hseen _ _ ihinner ihrest =>
    have hinner := ihinner (hs ++ pending)
    have hrest := ihrest pending
    have hall := Relation.ReflTransGen.head (.take hseen) (hinner.trans hrest)
    simpa using hall

end Visits

end Graph

end SchemaGraph
