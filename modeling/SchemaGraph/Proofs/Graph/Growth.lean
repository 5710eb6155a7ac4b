import SchemaGraph.Graph

/-!
This module contains how graphs change. Building a node adds at most that node and leaves the shapes
of all others as they are. Filling in an open slot changes the shape of the node with the slot.
Nothing else ever happens to a graph, and both hold of every graph, whatever is in it.
-/

namespace SchemaGraph

inductive Shape.Becomes : Shape → Shape → Prop where
  | same (shape : Shape) : Becomes shape shape
  | record (fields : Fields) : Becomes (.record .pending) (.record (.filled fields))
  | map (values : Handle) : Becomes (.map .pending) (.map (.filled values))

def Shape.isOpen : Shape → Bool
  | .record .pending => true
  | .map .pending => true
  | _ => false

theorem Shape.Becomes.trans {a b c : Shape} (hab : a.Becomes b) (hbc : b.Becomes c) :
    a.Becomes c := by
  cases hab with
  | same => exact hbc
  | record fields =>
    cases hbc
    exact .record fields
  | map values =>
    cases hbc
    exact .map values

namespace Graph

def Has (g : Graph) (h : Handle) : Prop :=
  h.index < g.size

def Grows (g g' : Graph) : Prop :=
  ∀ h shape, g.shape? h = some shape → g'.shape? h = some shape

def Evolves (g g' : Graph) : Prop :=
  ∀ h shape, g.shape? h = some shape → ∃ shape', g'.shape? h = some shape' ∧ shape.Becomes shape'

def Pending (g : Graph) (h : Handle) : Prop :=
  ∃ shape, g.shape? h = some shape ∧ shape.isOpen = true

variable {g g' g'' : Graph} {h : Handle} {shape : Shape}

theorem has_iff : g.Has h ↔ ∃ shape, g.shape? h = some shape := by
  unfold Has shape? node? size
  constructor
  . intro hlt
    rw [Array.getElem?_eq_getElem hlt]
    exact ⟨_, rfl⟩
  . rintro ⟨shape, hshape⟩
    obtain ⟨node, hnode, -⟩ := Option.map_eq_some_iff.1 hshape
    exact (Array.getElem?_eq_some_iff.1 hnode).1

theorem has_of_shape? (hshape : g.shape? h = some shape) : g.Has h :=
  has_iff.2 ⟨shape, hshape⟩

theorem Pending.has (hpending : g.Pending h) : g.Has h := by
  obtain ⟨shape, hshape, -⟩ := hpending
  exact has_of_shape? hshape

theorem Grows.refl (g : Graph) : g.Grows g :=
  fun _ _ hshape => hshape

theorem Grows.trans (hg : g.Grows g') (hg' : g'.Grows g'') : g.Grows g'' :=
  fun h shape hshape => hg' h shape (hg h shape hshape)

theorem Grows.evolves (hg : g.Grows g') : g.Evolves g' :=
  fun h shape hshape => ⟨shape, hg h shape hshape, .same shape⟩

theorem Evolves.refl (g : Graph) : g.Evolves g :=
  (Grows.refl g).evolves

theorem Evolves.trans (hg : g.Evolves g') (hg' : g'.Evolves g'') : g.Evolves g'' := by
  intro h shape hshape
  obtain ⟨shape', hshape', hbecomes⟩ := hg h shape hshape
  obtain ⟨shape'', hshape'', hbecomes'⟩ := hg' h shape' hshape'
  exact ⟨shape'', hshape'', hbecomes.trans hbecomes'⟩

theorem Evolves.has (hg : g.Evolves g') (h : Handle) (hhas : g.Has h) : g'.Has h := by
  obtain ⟨shape, hshape⟩ := has_iff.1 hhas
  obtain ⟨shape', hshape', -⟩ := hg h shape hshape
  exact has_of_shape? hshape'

theorem Grows.has (hg : g.Grows g') (h : Handle) (hhas : g.Has h) : g'.Has h :=
  hg.evolves.has h hhas

theorem Evolves.shape? (hg : g.Evolves g') (hshape : g.shape? h = some shape)
    (hclosed : shape.isOpen = false) : g'.shape? h = some shape := by
  obtain ⟨shape', hshape', hbecomes⟩ := hg h shape hshape
  cases hbecomes with
  | same => exact hshape'
  | record fields => cases hclosed
  | map values => cases hclosed

theorem Grows.shape?_eq (hg : g.Grows g') (hhas : g.Has h) : g'.shape? h = g.shape? h := by
  obtain ⟨shape, hshape⟩ := has_iff.1 hhas
  rw [hshape]
  exact hg h shape hshape

theorem Grows.pending (hg : g.Grows g') (hhas : g.Has h) (hpending : g'.Pending h) :
    g.Pending h := by
  unfold Pending at hpending
  rwa [hg.shape?_eq hhas] at hpending

theorem shape?_push (g : Graph) (node : Node) (h : Handle) :
    (g.push node).2.shape? h = if h.index = g.size then some node.shape else g.shape? h := by
  unfold Graph.shape?
  rw [node?_push]
  split
  . rfl
  . rfl

theorem shape?_push_self (g : Graph) (node : Node) :
    (g.push node).2.shape? (g.push node).1 = some node.shape := by
  rw [shape?_push]
  exact if_pos rfl

theorem fresh_push (g : Graph) (node : Node) (h : Handle) (hhas : (g.push node).2.Has h) :
    g.Has h ∨ h = (g.push node).1 := by
  unfold Has at hhas ⊢
  rw [size_push] at hhas
  by_cases hlt : h.index < g.size
  . exact Or.inl hlt
  . right
    obtain ⟨index⟩ := h
    have hindex : index = g.size := by
      dsimp only at hhas hlt
      omega
    rw [hindex]
    rfl

theorem grows_push (g : Graph) (node : Node) : g.Grows (g.push node).2 := by
  intro h shape hshape
  have hlt : h.index < g.size := has_of_shape? hshape
  rw [shape?_push, if_neg (by omega)]
  exact hshape

theorem grows_addHint (g : Graph) (h : Handle) (hint : NameHint) :
    g.Grows (g.addHint h hint) := by
  intro k shape hshape
  rw [shape?_addHint]
  exact hshape

theorem shape?_setShape (g : Graph) (target h : Handle) (shape : Shape) (hhas : g.Has target) :
    (g.setShape target shape).shape? h = if h = target then some shape else g.shape? h := by
  have hlt : target.index < g.nodes.size := hhas
  have hnode : g.node? target = some g.nodes[target.index] := Array.getElem?_eq_getElem hlt
  unfold setShape
  rw [hnode]
  dsimp only
  unfold shape? node?
  rw [Array.getElem?_setIfInBounds]
  by_cases heq : target.index = h.index
  . have hhandle : h = target := by
      cases h
      cases target
      cases heq
      rfl
    rw [if_pos heq, if_pos hhandle, if_pos hlt]
    rfl
  . have hhandle : h ≠ target := by
      rintro rfl
      exact heq rfl
    rw [if_neg heq, if_neg hhandle]

theorem shared_setShape (g : Graph) (target : Handle) (shape : Shape) :
    (g.setShape target shape).shared = g.shared := by
  unfold setShape
  split
  . rfl
  . rfl

structure Fills (g : Graph) (target : Handle) (shape : Shape) (g' : Graph) : Prop where
  pending : g.Pending target
  becomes {old} : g.shape? target = some old → old.Becomes shape
  shape? h : g'.shape? h = if h = target then some shape else g.shape? h
  shared : g'.shared = g.shared

theorem Fills.evolves {target : Handle} (hfills : g.Fills target shape g') : g.Evolves g' := by
  intro h old hold
  rw [hfills.shape?]
  split
  . next heq =>
    subst heq
    exact ⟨shape, rfl, hfills.becomes hold⟩
  . exact ⟨old, hold, .same old⟩

theorem Fills.grows {target : Handle} (hfills : g'.Fills target shape g'') (hg : g.Grows g')
    (htarget : ¬g.Has target) : g.Grows g'' := by
  intro h old hold
  rw [hfills.shape?, if_neg]
  . exact hg h old hold
  . rintro rfl
    exact htarget (has_of_shape? hold)

theorem fills_setShape {target : Handle} {old : Shape} (hold : g.shape? target = some old)
    (hopen : old.isOpen = true) (hbecomes : old.Becomes shape) :
    g.Fills target shape (g.setShape target shape) where
  pending := ⟨old, hold, hopen⟩
  becomes := by
    intro old' hold'
    rw [hold] at hold'
    cases hold'
    exact hbecomes
  shape? h := shape?_setShape g target h shape (has_of_shape? hold)
  shared := shared_setShape g target shape

theorem fillRecord_eq (g : Graph) (h : Handle) (fields : Fields) :
    g.fillRecord h fields =
      if g.shape? h = some (.record .pending) then .ok (g.setShape h (.record (.filled fields)))
      else .error (.noOpenSlot h) := by
  unfold fillRecord
  split
  . next hshape => rw [if_pos hshape]
  . next hshape => rw [if_neg hshape]

theorem fillMap_eq (g : Graph) (h values : Handle) :
    g.fillMap h values =
      if g.shape? h = some (.map .pending) then .ok (g.setShape h (.map (.filled values)))
      else .error (.noOpenSlot h) := by
  unfold fillMap
  split
  . next hshape => rw [if_pos hshape]
  . next hshape => rw [if_neg hshape]

theorem fills_fillRecord {target : Handle} {fields : Fields}
    (hfill : g.fillRecord target fields = .ok g') :
    g.Fills target (.record (.filled fields)) g' := by
  unfold fillRecord at hfill
  split at hfill
  . next hpending =>
    cases hfill
    exact fills_setShape hpending rfl (.record fields)
  . cases hfill

theorem fills_fillMap {target values : Handle} (hfill : g.fillMap target values = .ok g') :
    g.Fills target (.map (.filled values)) g' := by
  unfold fillMap at hfill
  split at hfill
  . next hpending =>
    cases hfill
    exact fills_setShape hpending rfl (.map values)
  . cases hfill

end Graph

end SchemaGraph
