import SchemaGraph.Conversion.Unification
import SchemaGraph.Proofs.Graph.Evolution

/-!
This module contains graphs that differ at most in the names of their nodes. Building the same node
in both gives the same handle and two such graphs again, whatever the names are that are given to
it, and reading types out of them gives the same in both.
-/

namespace SchemaGraph

namespace Graph

def SameShapes (g g' : Graph) : Prop :=
  ∀ h, g.shape? h = g'.shape? h

structure Like (named : Prop) (g g' : Graph) : Prop where
  shapes : g.SameShapes g'
  shared : g.shared = g'.shared
  eq : named → g = g'

variable {g g' : Graph}

theorem SameShapes.has_iff (hg : g.SameShapes g') (h : Handle) : g.Has h ↔ g'.Has h := by
  rw [Graph.has_iff, Graph.has_iff, hg h]

theorem SameShapes.size_eq (hg : g.SameShapes g') : g.size = g'.size := by
  apply Nat.le_antisymm
  . have hnot := mt (hg.has_iff ⟨g'.size⟩).1 (Nat.lt_irrefl _)
    exact Nat.le_of_not_lt hnot
  . have hnot := mt (hg.has_iff ⟨g.size⟩).2 (Nat.lt_irrefl _)
    exact Nat.le_of_not_lt hnot

theorem SameShapes.push_eq (hg : g.SameShapes g') (node node' : Node) :
    (g.push node).1 = (g'.push node').1 :=
  congrArg Handle.mk hg.size_eq

theorem SameShapes.opened (hg : g.SameShapes g') (depth : Nat) (h : Handle) :
    g.opened depth h = g'.opened depth h := by
  induction depth generalizing h with
  | zero => rfl
  | succ depth ih =>
    have hopened : g.opened depth = g'.opened depth := funext ih
    unfold Graph.opened
    rw [hg h, hopened]

theorem SameShapes.leaves (hg : g.SameShapes g') (hs : List Handle) :
    g.leaves hs = g'.leaves hs := by
  unfold Graph.leaves
  rw [hg.size_eq, show g.opened (g'.size + 1) = g'.opened (g'.size + 1) from funext (hg.opened _)]

theorem SameShapes.valuesRead (hg : g.SameShapes g') (maps : List Handle) :
    g.valuesRead maps = g'.valuesRead maps := by
  have hvalues : g.valuesOf? = g'.valuesOf? := by
    funext h
    unfold Graph.valuesOf?
    rw [hg h]
  unfold Graph.valuesRead
  rw [hvalues]

theorem SameShapes.unificationBound (hg : g.SameShapes g') :
    g.unificationBound = g'.unificationBound := by
  unfold Graph.unificationBound
  rw [hg.size_eq]

theorem SameShapes.push (hg : g.SameShapes g') {node node' : Node}
    (hnode : node.shape = node'.shape) : (g.push node).2.SameShapes (g'.push node').2 := by
  intro k
  rw [shape?_push, shape?_push, hg.size_eq, hnode, hg k]

theorem SameShapes.setShape (hg : g.SameShapes g') {h : Handle} (hhas : g.Has h) (shape : Shape) :
    (g.setShape h shape).SameShapes (g'.setShape h shape) := by
  intro k
  rw [shape?_setShape g h k shape hhas, shape?_setShape g' h k shape ((hg.has_iff h).1 hhas), hg k]

namespace Like

variable {named : Prop}

theorem refl (g : Graph) : g.Like named g :=
  ⟨fun _ => rfl, rfl, fun _ => rfl⟩

theorem push (hg : g.Like named g') {node node' : Node} (hnode : node.shape = node'.shape)
    (hhint : named → node.hint = node'.hint) : (g.push node).2.Like named (g'.push node').2 where
  shapes := hg.shapes.push hnode
  shared := hg.shared
  eq hnamed := by
    obtain ⟨shape, hint⟩ := node
    obtain ⟨shape', hint'⟩ := node'
    cases hnode
    cases hhint hnamed
    rw [hg.eq hnamed]

theorem setShape (hg : g.Like named g') {h : Handle} (hhas : g.Has h) (shape : Shape) :
    (g.setShape h shape).Like named (g'.setShape h shape) where
  shapes := hg.shapes.setShape hhas shape
  shared := by
    rw [shared_setShape, shared_setShape]
    exact hg.shared
  eq hnamed := by rw [hg.eq hnamed]

theorem share (hg : g.Like named g') (key : Key) (shape : Shape) {hint hint' : Option NameHint}
    (hhint : named → hint = hint') :
    (g.share key shape hint).1 = (g'.share key shape hint').1 ∧
      (g.share key shape hint).2.Like named (g'.share key shape hint').2 := by
  have hfound : g.shared? key = g'.shared? key := by
    unfold Graph.shared?
    rw [hg.shared]
  have hparts : (g.share key shape hint).1 = (g'.share key shape hint').1 ∧
      (g.share key shape hint).2.SameShapes (g'.share key shape hint').2 ∧
      (g.share key shape hint).2.shared = (g'.share key shape hint').2.shared := by
    unfold Graph.share
    rw [hfound]
    cases g'.shared? key with
    | some h =>
      refine ⟨by cases hint <;> cases hint' <;> rfl, fun k => ?_, ?_⟩
      . cases hint <;> cases hint' <;> simp [hg.shapes k]
      . cases hint <;> cases hint' <;> simp [shared_addHint, hg.shared]
    | none =>
      have hhandle := hg.shapes.push_eq ⟨shape, hint⟩ ⟨shape, hint'⟩
      have hshapes : (g.push ⟨shape, hint⟩).2.SameShapes (g'.push ⟨shape, hint'⟩).2 :=
        hg.shapes.push rfl
      refine ⟨hhandle, hshapes, ?_⟩
      change (key, (g.push _).1) :: g.shared = (key, (g'.push _).1) :: g'.shared
      rw [hhandle, hg.shared]
  exact ⟨hparts.1, hparts.2.1, hparts.2.2, fun hnamed => by rw [hg.eq hnamed, hhint hnamed]⟩

theorem trans {g'' : Graph} (h : g.Like named g') (h' : g'.Like named g'') : g.Like named g'' where
  shapes k := (h.shapes k).trans (h'.shapes k)
  shared := h.shared.trans h'.shared
  eq hnamed := (h.eq hnamed).trans (h'.eq hnamed)

theorem grows (h : g.Like named g') : g.Grows g' :=
  fun k _ hshape => (h.shapes k).symm.trans hshape

theorem rank?_eq (h : g.Like named g') : g.rank? = g'.rank? := by
  funext k
  unfold Graph.rank?
  rw [h.shapes k]

theorem sound (h : g.Like named g') (hg : g.Sound) : g'.Sound where
  inside hshape child hchild :=
    (h.shapes.has_iff child).1 (hg.inside ((h.shapes _).trans hshape) child hchild)
  descends hshape := hg.descends ((h.shapes _).trans hshape)
  shared hmem := (h.shapes _).symm.trans (hg.shared (h.shared ▸ hmem))
  allows := by
    intro k shape hshape
    have hallows := hg.allows ((h.shapes k).trans hshape)
    cases shape with
    | union members => exact ⟨hallows.1, h.rank?_eq ▸ hallows.2⟩
    | nullable inner =>
      obtain ⟨shape, hinner, hplain⟩ := hallows
      exact ⟨shape, (h.shapes inner).symm.trans hinner, hplain⟩
    | record fields =>
      cases fields with
      | pending => trivial
      | filled fields => exact hallows
    | _ => trivial

end Like

end Graph

end SchemaGraph
