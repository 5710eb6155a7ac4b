import SchemaGraph.Proofs.Graph.Evolution

/-!
This module contains what becomes of the nodes of a graph together with their names. A node keeps
its type while the graph grows. Its name only ever gives way to a stronger one, and a node without a
name stays without one. That takes no more than a table of shared nodes that is right, so it holds
of graphs that refer to nodes which are not there, too.
-/

namespace SchemaGraph

def NameHint.YieldsTo (hint hint' : NameHint) : Prop :=
  ∃ others : List NameHint, hint' = others.foldl NameHint.strengthen hint

theorem NameHint.YieldsTo.refl (hint : NameHint) : hint.YieldsTo hint :=
  ⟨[], rfl⟩

theorem NameHint.YieldsTo.trans {a b c : NameHint} (hab : a.YieldsTo b) (hbc : b.YieldsTo c) :
    a.YieldsTo c := by
  obtain ⟨others, rfl⟩ := hab
  obtain ⟨others', rfl⟩ := hbc
  exact ⟨others ++ others', List.foldl_append.symm⟩

theorem NameHint.yieldsTo_strengthen (hint other : NameHint) :
    hint.YieldsTo (hint.strengthen other) :=
  ⟨[other], rfl⟩

def Key.isNamed : Key → Bool
  | .string => true
  | .enum _ => true
  | .union _ => true
  | .nullable _ => true
  | _ => false

theorem Key.isNamed_of_same {a b : Key} (h : a.same b = true) : a.isNamed = b.isNamed := by
  cases a <;> cases b <;> first | rfl | cases h

namespace Graph

def Keeps (g g' : Graph) : Prop :=
  ∀ h node, g.node? h = some node → ∃ node', g'.node? h = some node' ∧ node'.shape = node.shape ∧
    Option.Rel NameHint.YieldsTo node.hint node'.hint

def Tabled (g : Graph) : Prop :=
  ∀ key h, (key, h) ∈ g.shared → ∃ node, g.node? h = some node ∧ node.shape = key.shape ∧
    (key.isNamed = true → node.hint.isSome = true)

structure Shares (g : Graph) (r : Handle × Graph) (key : Key) : Prop where
  keeps : g.Keeps r.2
  tabled : r.2.Tabled
  shape : r.2.shape? r.1 = some key.shape
  fresh h : r.2.Has h → g.Has h ∨ h = r.1

variable {g g' g'' : Graph} {h : Handle}

theorem tabled_empty : empty.Tabled :=
  fun _ _ hmem => nomatch hmem

theorem Keeps.refl (g : Graph) : g.Keeps g := by
  intro h node hnode
  refine ⟨node, hnode, rfl, ?_⟩
  cases node.hint with
  | none => exact .none
  | some hint => exact .some (.refl hint)

theorem Keeps.trans (hg : g.Keeps g') (hg' : g'.Keeps g'') : g.Keeps g'' := by
  intro h node hnode
  obtain ⟨node', hnode', hshape, hhint⟩ := hg h node hnode
  obtain ⟨node'', hnode'', hshape', hhint'⟩ := hg' h node' hnode'
  refine ⟨node'', hnode'', hshape'.trans hshape, ?_⟩
  revert hhint hhint'
  generalize node.hint = a
  generalize node'.hint = b
  generalize node''.hint = c
  intro hab hbc
  cases hab with
  | none => exact hbc
  | some hab =>
    cases hbc with
    | some hbc => exact .some (hab.trans hbc)

theorem Keeps.grows (hg : g.Keeps g') : g.Grows g' := by
  intro h shape hshape
  obtain ⟨node, hnode, rfl⟩ := Option.map_eq_some_iff.1 hshape
  obtain ⟨node', hnode', hshape', -⟩ := hg h node hnode
  exact Option.map_eq_some_iff.2 ⟨node', hnode', hshape'⟩

theorem Keeps.isSome {node : Node} (hg : g.Keeps g') (hnode : g.node? h = some node) :
    ∃ node', g'.node? h = some node' ∧ node'.shape = node.shape ∧
      node'.hint.isSome = node.hint.isSome := by
  obtain ⟨node', hnode', hshape, hhint⟩ := hg h node hnode
  refine ⟨node', hnode', hshape, ?_⟩
  revert hhint
  generalize node.hint = a
  generalize node'.hint = b
  rintro (_ | _)
  . rfl
  . rfl

theorem Tabled.keep (hg : g.Tabled) (hkeeps : g.Keeps g') (hshared : g'.shared = g.shared) :
    g'.Tabled := by
  intro key h hmem
  rw [hshared] at hmem
  obtain ⟨node, hnode, hshape, hnamed⟩ := hg key h hmem
  obtain ⟨node', hnode', hshape', hhint⟩ := hkeeps.isSome hnode
  refine ⟨node', hnode', hshape'.trans hshape, ?_⟩
  rwa [hhint]

theorem Tabled.shape? (hg : g.Tabled) {key : Key} (hmem : (key, h) ∈ g.shared) :
    g.shape? h = some key.shape := by
  obtain ⟨node, hnode, hshape, -⟩ := hg key h hmem
  exact Option.map_eq_some_iff.2 ⟨node, hnode, hshape⟩

theorem keeps_push (g : Graph) (node : Node) : g.Keeps (g.push node).2 := by
  intro h old hold
  have hlt : h.index < g.size := (Array.getElem?_eq_some_iff.1 hold).1
  have hnode : (g.push node).2.node? h = some old := by
    rw [node?_push, if_neg (Nat.ne_of_lt hlt)]
    exact hold
  obtain ⟨node', hnode', hkept⟩ := Keeps.refl g h old hold
  cases hold.symm.trans hnode'
  exact ⟨old, hnode, hkept⟩

theorem tabled_push (hg : g.Tabled) (node : Node) : (g.push node).2.Tabled :=
  hg.keep (keeps_push g node) rfl

theorem node?_setIfInBounds (g : Graph) (target h : Handle) (node : Node) :
    (Graph.mk (g.nodes.setIfInBounds target.index node) g.shared).node? h =
      if h = target then (g.node? target).map fun _ => node else g.node? h := by
  unfold node?
  rw [Array.getElem?_setIfInBounds]
  by_cases heq : target.index = h.index
  . have hhandle : h = target := by
      cases h
      cases target
      cases heq
      rfl
    subst hhandle
    rw [if_pos rfl, if_pos rfl]
    by_cases hlt : h.index < g.nodes.size
    . rw [if_pos hlt, Array.getElem?_eq_getElem hlt]
      rfl
    . rw [if_neg hlt, Array.getElem?_eq_none (Nat.le_of_not_lt hlt)]
      rfl
  . have hhandle : h ≠ target := by
      rintro rfl
      exact heq rfl
    rw [if_neg heq, if_neg hhandle]

theorem keeps_addHint {node : Node} (hnode : g.node? h = some node)
    (hnamed : node.hint.isSome = true) (hint : NameHint) : g.Keeps (g.addHint h hint) := by
  obtain ⟨old, hold⟩ := Option.isSome_iff_exists.1 hnamed
  unfold addHint
  rw [hnode]
  dsimp only
  rw [hold]
  intro k node' hnode'
  rw [node?_setIfInBounds]
  split
  . next heq =>
    subst heq
    cases hnode.symm.trans hnode'
    refine ⟨{ node with hint := some (old.strengthen hint) }, by rw [hnode]; rfl, rfl, ?_⟩
    rw [hold]
    exact .some (old.yieldsTo_strengthen hint)
  . exact Keeps.refl g k node' hnode'

theorem shares_share (hg : g.Tabled) {key : Key} {hint : Option NameHint}
    (hhint : hint.isSome = key.isNamed) :
    ∃ key' : Key, key'.same key = true ∧ g.Shares (g.share key key.shape hint) key' := by
  unfold share
  cases hshared : g.shared? key with
  | some h =>
    obtain ⟨key', hsame, hmem⟩ := shared?_eq_some hshared
    refine ⟨key', hsame, ?_⟩
    cases hint with
    | none => exact ⟨.refl g, hg, hg.shape? hmem, fun _ hhas => Or.inl hhas⟩
    | some hint =>
      have hnamed : key'.isNamed = true := by
        rw [Key.isNamed_of_same hsame, ← hhint]
        rfl
      obtain ⟨node, hnode, -, hsome⟩ := hg key' h hmem
      have hkeeps := keeps_addHint hnode (hsome hnamed) hint
      have htabled := hg.keep hkeeps (shared_addHint g h hint)
      refine ⟨hkeeps, htabled, ?_, ?_⟩
      . dsimp only
        rw [shape?_addHint]
        exact hg.shape? hmem
      . intro k hhas
        unfold Has at hhas
        rw [size_addHint] at hhas
        exact Or.inl hhas
  | none =>
    have hnode : (g.push ⟨key.shape, hint⟩).2.node? (g.push ⟨key.shape, hint⟩).1 =
        some ⟨key.shape, hint⟩ := by
      rw [node?_push]
      exact if_pos rfl
    refine ⟨key, Key.same_refl key, keeps_push g _, ?_, ?_, fresh_push g _⟩
    . intro key' h hmem
      rcases List.mem_cons.1 hmem with heq | hmem
      . cases heq
        exact ⟨_, hnode, rfl, fun hnamed => hhint.trans hnamed⟩
      . exact tabled_push hg _ key' h hmem
    . exact Option.map_eq_some_iff.2 ⟨_, hnode, rfl⟩

theorem Keeps.setShape {target : Handle} {shape : Shape} (hg : g.Keeps g')
    (htarget : ¬g.Has target) : g.Keeps (g'.setShape target shape) := by
  unfold Graph.setShape
  cases hold : g'.node? target with
  | none => exact hg
  | some old =>
    intro h node hnode
    rw [node?_setIfInBounds, if_neg]
    . exact hg h node hnode
    . rintro rfl
      exact htarget (Array.getElem?_eq_some_iff.1 hnode).1

theorem Tabled.setShape {target : Handle} {shape : Shape} (hg : g.Tabled)
    (htarget : g.Pending target) : (g.setShape target shape).Tabled := by
  intro key h hmem
  rw [shared_setShape] at hmem
  obtain ⟨node, hnode, hshape, hnamed⟩ := hg key h hmem
  refine ⟨node, ?_, hshape, hnamed⟩
  unfold Graph.setShape
  cases hold : g.node? target with
  | none => exact hnode
  | some old =>
    dsimp only
    rw [node?_setIfInBounds, if_neg]
    . exact hnode
    . rintro rfl
      -- Shared nodes are not open.
      obtain ⟨shape', hshape', hopen⟩ := htarget
      rw [hg.shape? hmem] at hshape'
      cases hshape'
      rw [key.isOpen_shape] at hopen
      cases hopen

end Graph

end SchemaGraph
