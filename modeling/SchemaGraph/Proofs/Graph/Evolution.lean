import SchemaGraph.Proofs.Graph.Growth

/-!
This module contains the invariant of graphs, which every function that builds a graph preserves.
The handles inside a node belong to the graph. The items of an array, the members of a union and the
type under a nullable are older than the node itself. The table of shared nodes says what is there.
The fields of a record have different names. The members of a union are of different kinds and in
the order of the kinds. No nullable wraps a type that has null anyway.
-/

namespace SchemaGraph

def Shape.nested : Shape → List Handle
  | .array items => [items]
  | .union members => members
  | .nullable inner => [inner]
  | _ => []

theorem Shape.mem_children_of_mem_nested {shape : Shape} {child : Handle}
    (h : child ∈ shape.nested) : child ∈ shape.children := by
  cases shape with
  | array items => exact h
  | union members => exact h
  | nullable inner => exact h
  | _ => cases h

/--
The rank of a kind of shapes among the members of a union. Records and maps count as one kind. Null,
`any`, unions and nullables are no members, so they have no rank.
-/
def Shape.rank? : Shape → Option Nat
  | .record _ => some 0
  | .map _ => some 0
  | .primitive .bool => some 1
  | .primitive .integer => some 2
  | .primitive .double => some 3
  | .string => some 4
  | .primitive .date => some 5
  | .primitive .time => some 6
  | .primitive .dateTime => some 7
  | .enum _ => some 8
  | .array _ => some 9
  | _ => none

def Shape.ranks : Nat := 10

theorem Shape.Becomes.rank? {a b : Shape} (h : a.Becomes b) : b.rank? = a.rank? := by
  cases h with
  | same => rfl
  | record fields => rfl
  | map values => rfl

def Key.shape : Key → Shape
  | .primitive kind => .primitive kind
  | .string => .string
  | .enum cases => .enum cases
  | .array items => .array items
  | .map values => .map (.filled values)
  | .union members => .union members
  | .nullable inner => .nullable inner

/--
The elements have ranks that increase from one to the next, from `low` on and below `high`.
-/
def Ascends {α : Type} (rank? : α → Option Nat) : Nat → Nat → List α → Prop
  | _, _, [] => True
  | low, high, a :: rest =>
    ∃ rank, rank? a = some rank ∧ low ≤ rank ∧ rank < high ∧ Ascends rank? (rank + 1) high rest

namespace Ascends

variable {α : Type} {rank? rank?' : α → Option Nat} {low low' mid high high' : Nat}
  {as bs : List α} {a : α}

theorem imp (h : Ascends rank? low high as)
    (hrank : ∀ a rank, rank? a = some rank → rank?' a = some rank) :
    Ascends rank?' low high as := by
  induction as generalizing low with
  | nil => trivial
  | cons a rest ih =>
    obtain ⟨rank, ha, hlow, hhigh, hrest⟩ := h
    exact ⟨rank, hrank a rank ha, hlow, hhigh, ih hrest⟩

theorem mono (h : Ascends rank? low high as) (hlow : low' ≤ low) (hhigh : high ≤ high') :
    Ascends rank? low' high' as := by
  induction as generalizing low low' with
  | nil => trivial
  | cons a rest ih =>
    obtain ⟨rank, ha, hle, hlt, hrest⟩ := h
    exact ⟨rank, ha, by omega, by omega, ih hrest (Nat.le_refl _)⟩

theorem append (has : Ascends rank? low mid as) (hbs : Ascends rank? mid high bs)
    (hlow : low ≤ mid) (hhigh : mid ≤ high) : Ascends rank? low high (as ++ bs) := by
  induction as generalizing low with
  | nil => exact hbs.mono hlow (Nat.le_refl _)
  | cons a rest ih =>
    obtain ⟨rank, ha, hle, hlt, hrest⟩ := has
    exact ⟨rank, ha, hle, by omega, ih hrest hlt⟩

theorem single {rank : Nat} (ha : rank? a = some rank) (hlow : low ≤ rank) (hhigh : rank < high) :
    Ascends rank? low high [a] :=
  ⟨rank, ha, hlow, hhigh, trivial⟩

theorem exists_rank (h : Ascends rank? low high as) (hmem : a ∈ as) :
    ∃ rank, rank? a = some rank ∧ low ≤ rank := by
  induction as generalizing low with
  | nil => cases hmem
  | cons b rest ih =>
    obtain ⟨rank, hb, hlow, -, hrest⟩ := h
    rcases List.mem_cons.1 hmem with rfl | hmem
    . exact ⟨rank, hb, hlow⟩
    . obtain ⟨rank', ha, hle⟩ := ih hrest hmem
      exact ⟨rank', ha, by omega⟩

end Ascends

theorem Key.isOpen_shape (key : Key) : key.shape.isOpen = false := by
  cases key with
  | _ => rfl

namespace Graph

def rank? (g : Graph) (h : Handle) : Option Nat :=
  (g.shape? h).bind Shape.rank?

def Allows (g : Graph) : Shape → Prop
  | .record (.filled fields) => (Entries.keys fields).Nodup
  | .union members => 2 ≤ members.length ∧ Ascends g.rank? 0 Shape.ranks members
  | .nullable inner => ∃ shape, g.shape? inner = some shape ∧ admitsNull shape = false
  | _ => True

structure Sound (g : Graph) : Prop where
  inside {h shape} : g.shape? h = some shape → ∀ child ∈ shape.children, g.Has child
  descends {h shape} : g.shape? h = some shape → ∀ child ∈ shape.nested, child.index < h.index
  shared {key h} : (key, h) ∈ g.shared → g.shape? h = some key.shape
  allows {h shape} : g.shape? h = some shape → g.Allows shape

structure Takes (g : Graph) (shape : Shape) : Prop where
  inside : ∀ child ∈ shape.children, g.Has child
  allows : g.Allows shape

structure Gives (g : Graph) (r : Handle × Graph) (shape : Shape) : Prop where
  grows : g.Grows r.2
  sound : r.2.Sound
  shape : r.2.shape? r.1 = some shape
  fresh h : r.2.Has h → g.Has h ∨ h = r.1

inductive Wraps (g : Graph) (h : Handle) : Handle → Prop where
  | itself : Wraps g h h
  | member {r : Handle} {members : List Handle} (hshape : g.shape? r = some (.union members))
    (hmem : h ∈ members) : Wraps g h r
  | nullable {r inner : Handle} (hshape : g.shape? r = some (.nullable inner))
    (hinner : Wraps g h inner) : Wraps g h r

structure Built (g g' : Graph) : Prop where
  grows : g.Grows g'
  sound : g'.Sound
  pending h : g'.Pending h → g.Has h

variable {g g' g'' : Graph} {h : Handle} {shape : Shape}

theorem rank?_of_shape? (hshape : g.shape? h = some shape) : g.rank? h = shape.rank? := by
  unfold rank?
  rw [hshape, Option.bind_some]

theorem has_of_rank? {rank : Nat} (hrank : g.rank? h = some rank) : g.Has h := by
  obtain ⟨shape, hshape, -⟩ := Option.bind_eq_some_iff.1 hrank
  exact has_of_shape? hshape

theorem Evolves.rank? (hg : g.Evolves g') (h : Handle) (rank : Nat)
    (hrank : g.rank? h = some rank) : g'.rank? h = some rank := by
  obtain ⟨shape, hshape, hkind⟩ := Option.bind_eq_some_iff.1 hrank
  obtain ⟨shape', hshape', hbecomes⟩ := hg h shape hshape
  rw [rank?_of_shape? hshape', hbecomes.rank?, hkind]

section Allows

theorem admitsNull_of_becomes {a b : Shape} (h : a.Becomes b) : admitsNull b = admitsNull a := by
  cases h with
  | same => rfl
  | record fields => rfl
  | map values => rfl

theorem rank?_of_admitsNull (hadmits : admitsNull shape = true) : shape.rank? = none := by
  unfold admitsNull at hadmits
  split at hadmits
  . rfl
  . rfl
  . rfl
  . cases hadmits

theorem isOpen_of_admitsNull (hadmits : admitsNull shape = true) : shape.isOpen = false := by
  unfold admitsNull at hadmits
  split at hadmits
  . rfl
  . rfl
  . rfl
  . cases hadmits

theorem Evolves.allows (hg : g.Evolves g') (hallows : g.Allows shape) : g'.Allows shape := by
  cases shape with
  | union members => exact ⟨hallows.1, hallows.2.imp hg.rank?⟩
  | nullable inner =>
    obtain ⟨shape, hshape, hnull⟩ := hallows
    obtain ⟨shape', hshape', hbecomes⟩ := hg inner shape hshape
    exact ⟨shape', hshape', by rw [admitsNull_of_becomes hbecomes, hnull]⟩
  | record fields =>
    cases fields with
    | pending => trivial
    | filled fields => exact hallows
  | _ => trivial

theorem Wraps.evolve {r : Handle} (hwraps : g.Wraps h r) (hg : g.Evolves g') : g'.Wraps h r := by
  induction hwraps with
  | itself => exact .itself
  | member hshape hmem => exact .member (hg.shape? hshape rfl) hmem
  | nullable hshape _ ih => exact .nullable (hg.shape? hshape rfl) ih

theorem Sound.has_of_valuesOf? {map values : Handle} (hg : g.Sound)
    (hvalues : g.valuesOf? map = some values) : g.Has values := by
  unfold valuesOf? at hvalues
  split at hvalues
  . next hshape =>
    cases hvalues
    exact hg.inside hshape _ (List.mem_singleton_self _)
  . next hshape =>
    cases hvalues
    exact has_of_shape? hshape
  . cases hvalues

theorem Sound.fields {fields : Fields} (hg : g.Sound)
    (hshape : g.shape? h = some (.record (.filled fields))) : (Entries.keys fields).Nodup :=
  hg.allows hshape

end Allows

section Builders

variable {r : Handle × Graph}

theorem Gives.evolves (hr : g.Gives r shape) : g.Evolves r.2 :=
  hr.grows.evolves

theorem Gives.has (hr : g.Gives r shape) : r.2.Has r.1 :=
  has_of_shape? hr.shape

theorem Built.refl (hg : g.Sound) : g.Built g :=
  ⟨Grows.refl g, hg, fun _ hpending => hpending.has⟩

theorem Built.trans (hg : g.Built g') (hg' : g'.Built g'') : g.Built g'' := by
  refine ⟨hg.grows.trans hg'.grows, hg'.sound, ?_⟩
  intro h hpending
  exact hg.pending h (hg'.grows.pending (hg'.pending h hpending) hpending)

theorem Built.evolves (hg : g.Built g') : g.Evolves g' :=
  hg.grows.evolves

theorem Gives.built (hr : g.Gives r shape) (hclosed : shape.isOpen = false) : g.Built r.2 := by
  refine ⟨hr.grows, hr.sound, ?_⟩
  intro h hpending
  rcases hr.fresh h hpending.has with hhas | rfl
  . exact hhas
  . obtain ⟨shape', hshape', hopen⟩ := hpending
    rw [hr.shape] at hshape'
    cases hshape'
    rw [hclosed] at hopen
    cases hopen

theorem sound_empty : empty.Sound where
  inside hshape := nomatch hshape
  descends hshape := nomatch hshape
  shared hmem := nomatch hmem
  allows hshape := nomatch hshape

theorem Takes.nested_lt (hshape : g.Takes shape) : ∀ child ∈ shape.nested, child.index < g.size :=
  fun child hchild => hshape.inside child (Shape.mem_children_of_mem_nested hchild)

theorem not_has_push (g : Graph) (node : Node) : ¬g.Has (g.push node).1 :=
  Nat.lt_irrefl _

theorem gives_push (hg : g.Sound) {node : Node} (hnode : g.Takes node.shape) :
    g.Gives (g.push node) node.shape where
  grows := grows_push g node
  sound := by
    -- Every node is the new one or an old one, and the new one is as the graph can take it.
    have hnew : ∀ {h shape}, (g.push node).2.shape? h = some shape →
        h.index = g.size ∧ shape = node.shape ∨ g.shape? h = some shape := by
      intro h shape hshape
      rw [shape?_push] at hshape
      split at hshape
      . next hindex =>
        cases hshape
        exact Or.inl ⟨hindex, rfl⟩
      . exact Or.inr hshape
    refine ⟨?_, ?_, ?_, ?_⟩
    . intro h shape hshape child hchild
      apply (grows_push g node).has
      rcases hnew hshape with ⟨-, rfl⟩ | hold
      . exact hnode.inside child hchild
      . exact hg.inside hold child hchild
    . intro h shape hshape child hchild
      rcases hnew hshape with ⟨hindex, rfl⟩ | hold
      . rw [hindex]
        exact hnode.nested_lt child hchild
      . exact hg.descends hold child hchild
    . intro key h hmem
      exact grows_push g node h _ (hg.shared hmem)
    . intro h shape hshape
      apply (grows_push g node).evolves.allows
      rcases hnew hshape with ⟨-, rfl⟩ | hold
      . exact hnode.allows
      . exact hg.allows hold
  shape := shape?_push_self g node
  fresh := fresh_push g node

theorem shared_addHint (g : Graph) (h : Handle) (hint : NameHint) :
    (g.addHint h hint).shared = g.shared := by
  unfold addHint
  split
  . rfl
  . rfl

theorem sound_addHint (hg : g.Sound) (h : Handle) (hint : NameHint) :
    (g.addHint h hint).Sound where
  inside hshape child hchild := by
    rw [shape?_addHint] at hshape
    exact (grows_addHint g h hint).has child (hg.inside hshape child hchild)
  descends hshape := by
    rw [shape?_addHint] at hshape
    exact hg.descends hshape
  shared hmem := by
    rw [shared_addHint] at hmem
    rw [shape?_addHint]
    exact hg.shared hmem
  allows hshape := by
    rw [shape?_addHint] at hshape
    exact (grows_addHint g h hint).evolves.allows (hg.allows hshape)

theorem shared?_eq_some {key : Key} (hshared : g.shared? key = some h) :
    ∃ key' : Key, key'.same key = true ∧ (key', h) ∈ g.shared := by
  unfold shared? at hshared
  obtain ⟨⟨key', h'⟩, hfind, rfl⟩ := Option.map_eq_some_iff.1 hshared
  have hsame : key'.same key = true := by simpa using List.find?_some hfind
  exact ⟨key', hsame, List.mem_of_find?_eq_some hfind⟩

theorem Sound.share {key : Key} (hg : g.Sound) (hshape : g.shape? h = some key.shape) :
    Sound ⟨g.nodes, (key, h) :: g.shared⟩ where
  inside := hg.inside
  descends := hg.descends
  shared := by
    intro key' h' hmem
    rcases List.mem_cons.1 hmem with heq | hmem
    . cases heq
      exact hshape
    . exact hg.shared hmem
  allows hshape' := by
    -- Only the table differs, and no shape is looked up in it.
    have hsame : g.Evolves ⟨g.nodes, (key, h) :: g.shared⟩ := Evolves.refl g
    exact hsame.allows (hg.allows hshape')

theorem gives_share (hg : g.Sound) {key : Key} (hkey : g.Takes key.shape)
    (hint : Option NameHint) :
    ∃ key' : Key, key'.same key = true ∧ g.Gives (g.share key key.shape hint) key'.shape := by
  unfold share
  cases hshared : g.shared? key with
  | some h =>
    obtain ⟨key', hsame, hmem⟩ := shared?_eq_some hshared
    refine ⟨key', hsame, ?_⟩
    cases hint with
    | none => exact ⟨Grows.refl g, hg, hg.shared hmem, fun _ hhas => Or.inl hhas⟩
    | some hint =>
      refine ⟨grows_addHint g h hint, sound_addHint hg h hint, ?_, ?_⟩
      . dsimp only
        rw [shape?_addHint]
        exact hg.shared hmem
      . intro k hhas
        unfold Has at hhas
        rw [size_addHint] at hhas
        exact Or.inl hhas
  | none =>
    have hpush : g.Gives (g.push ⟨key.shape, hint⟩) key.shape := gives_push hg hkey
    exact ⟨key, Key.same_refl key, hpush.grows, hpush.sound.share hpush.shape, hpush.shape,
      hpush.fresh⟩

theorem gives_addPrimitive (hg : g.Sound) (kind : Primitive) :
    g.Gives (g.addPrimitive kind) (.primitive kind) := by
  have hkey : g.Takes (Key.primitive kind).shape := ⟨fun _ hchild => (nomatch hchild), trivial⟩
  obtain ⟨key', hsame, hgives⟩ := gives_share hg hkey none
  cases key' with
  | primitive kind' =>
    cases of_decide_eq_true hsame
    exact hgives
  | _ => cases hsame

theorem gives_addString (hg : g.Sound) (hint : NameHint) :
    g.Gives (g.addString hint) .string := by
  have hkey : g.Takes Key.string.shape := ⟨fun _ hchild => (nomatch hchild), trivial⟩
  obtain ⟨key', hsame, hgives⟩ := gives_share hg hkey (some hint)
  cases key' with
  | string => exact hgives
  | _ => cases hsame

theorem gives_addEnum (hg : g.Sound) (hint : NameHint) (cases : List String) :
    ∃ cases', (∀ text, text ∈ cases' ↔ text ∈ cases) ∧
      g.Gives (g.addEnum hint cases) (.enum cases') := by
  have hkey : g.Takes (Key.enum (distinct cases)).shape :=
    ⟨fun _ hchild => (nomatch hchild), trivial⟩
  obtain ⟨key', hsame, hgives⟩ := gives_share hg hkey (some hint)
  cases key' with
  | enum cases' =>
    refine ⟨cases', ?_, hgives⟩
    intro text
    rw [sameElements_iff.1 hsame text, mem_distinct]
  | _ => cases hsame

theorem gives_addArray (hg : g.Sound) {items : Handle} (hitems : g.Has items) :
    g.Gives (g.addArray items) (.array items) := by
  have hkey : g.Takes (Key.array items).shape :=
    ⟨fun _ hchild => by rwa [List.mem_singleton.1 hchild], trivial⟩
  obtain ⟨key', hsame, hgives⟩ := gives_share hg hkey none
  cases key' with
  | array items' =>
    cases of_decide_eq_true hsame
    exact hgives
  | _ => cases hsame

theorem gives_addMap (hg : g.Sound) {values : Handle} (hvalues : g.Has values) :
    g.Gives (g.addMap values) (.map (.filled values)) := by
  have hkey : g.Takes (Key.map values).shape :=
    ⟨fun _ hchild => by rwa [List.mem_singleton.1 hchild], trivial⟩
  obtain ⟨key', hsame, hgives⟩ := gives_share hg hkey none
  cases key' with
  | map values' =>
    cases of_decide_eq_true hsame
    exact hgives
  | _ => cases hsame

theorem gives_addOpenMap (hg : g.Sound) : g.Gives g.addOpenMap (.map .pending) :=
  gives_push hg ⟨fun _ hchild => (nomatch hchild), trivial⟩

theorem gives_addUnion (hg : g.Sound) (hint : NameHint) {members : List Handle}
    (hmembers : ∀ member ∈ members, g.Has member) (hmany : 2 ≤ members.length)
    (hascends : Ascends g.rank? 0 Shape.ranks members) :
    ∃ members', (∀ member, member ∈ members' ↔ member ∈ members) ∧
      g.Gives (g.addUnion hint members) (.union members') := by
  have hkey : g.Takes (Key.union members).shape := ⟨hmembers, hmany, hascends⟩
  obtain ⟨key', hsame, hgives⟩ := gives_share hg hkey (some hint)
  cases key' with
  | union members' => exact ⟨members', sameElements_iff.1 hsame, hgives⟩
  | _ => cases hsame

theorem gives_addNullable (hg : g.Sound) {inner : Handle} (hinner : g.Has inner)
    (hint : NameHint) :
    ∃ shape, g.Gives (g.addNullable inner hint) shape ∧
      (shape = .nullable inner ∨
        (g.addNullable inner hint).1 = inner ∧ admitsNull shape = true) := by
  obtain ⟨shape, hshape⟩ := has_iff.1 hinner
  unfold addNullable
  rw [hshape, Option.any_some]
  split
  . next hadmits =>
    exact ⟨shape, ⟨Grows.refl g, hg, hshape, fun _ hhas => Or.inl hhas⟩, Or.inr ⟨rfl, hadmits⟩⟩
  . next hadmits =>
    have hkey : g.Takes (Key.nullable inner).shape := by
      refine ⟨?_, shape, hshape, Bool.eq_false_iff.2 hadmits⟩
      intro child hchild
      rwa [List.mem_singleton.1 hchild]
    obtain ⟨key', hsame, hgives⟩ := gives_share hg hkey (some hint)
    cases key' with
    | nullable inner' =>
      cases of_decide_eq_true hsame
      exact ⟨.nullable inner, hgives, Or.inl rfl⟩
    | _ => cases hsame

theorem built_addNullable (hg : g.Sound) {inner : Handle} (hinner : g.Has inner)
    (hint : NameHint) :
    g.Built (g.addNullable inner hint).2 ∧
      (g.addNullable inner hint).2.Has (g.addNullable inner hint).1 := by
  obtain ⟨shape, hgives, rfl | ⟨-, hadmits⟩⟩ := gives_addNullable hg hinner hint
  . exact ⟨hgives.built rfl, hgives.has⟩
  . exact ⟨hgives.built (isOpen_of_admitsNull hadmits), hgives.has⟩

theorem wraps_addUnion (hg : g.Sound) (hint : NameHint) {members : List Handle}
    (hmembers : ∀ member ∈ members, g.Has member) (hmany : 2 ≤ members.length)
    (hascends : Ascends g.rank? 0 Shape.ranks members) (hmem : h ∈ members) :
    (g.addUnion hint members).2.Wraps h (g.addUnion hint members).1 := by
  obtain ⟨members', hmembers', hgives⟩ := gives_addUnion hg hint hmembers hmany hascends
  exact .member hgives.shape ((hmembers' h).2 hmem)

theorem wraps_addNullable (hg : g.Sound) {inner : Handle} (hinner : g.Has inner) (hint : NameHint)
    (hwraps : g.Wraps h inner) :
    (g.addNullable inner hint).2.Wraps h (g.addNullable inner hint).1 := by
  obtain ⟨shape, hgives, hshape⟩ := gives_addNullable hg hinner hint
  have hwraps' := hwraps.evolve hgives.evolves
  rcases hshape with rfl | ⟨hsame, -⟩
  . exact .nullable hgives.shape hwraps'
  . rwa [hsame]

theorem gives_addRecord (hg : g.Sound) (hint : NameHint) {fields : Slot Fields}
    (hinside : ∀ child ∈ (Shape.record fields).children, g.Has child)
    (hkeys : ∀ content, fields = .filled content → (Entries.keys content).Nodup) :
    g.Gives (g.addRecord hint fields) (.record fields) := by
  apply gives_push hg
  refine ⟨hinside, ?_⟩
  cases fields with
  | pending => trivial
  | filled content => exact hkeys content rfl

end Builders

theorem Fills.sound {target : Handle} (hfills : g.Fills target shape g') (hg : g.Sound)
    (hshape : g.Takes shape) (hnested : shape.nested = []) : g'.Sound := by
  have hevolves := hfills.evolves
  -- Only the target has changed, and what it holds now is as the graph can take it.
  refine ⟨?_, ?_, ?_, ?_⟩
  . intro h shape' hnew child hchild
    rw [hfills.shape?] at hnew
    apply hevolves.has
    split at hnew
    . cases hnew
      exact hshape.inside child hchild
    . exact hg.inside hnew child hchild
  . intro h shape' hnew child hchild
    rw [hfills.shape?] at hnew
    split at hnew
    . cases hnew
      rw [hnested] at hchild
      cases hchild
    . exact hg.descends hnew child hchild
  . intro key h hmem
    rw [hfills.shared] at hmem
    have hold := hg.shared hmem
    rw [hfills.shape?, if_neg]
    . exact hold
    . rintro rfl
      obtain ⟨shape', hshape', hopen⟩ := hfills.pending
      rw [hold] at hshape'
      cases hshape'
      rw [key.isOpen_shape] at hopen
      cases hopen
  . intro h shape' hnew
    rw [hfills.shape?] at hnew
    apply hevolves.allows
    split at hnew
    . cases hnew
      exact hshape.allows
    . exact hg.allows hnew

theorem Gives.built_of_fills {r : Handle × Graph} {shape' : Shape} (hr : g.Gives r shape)
    (hnew : ¬g.Has r.1) (hbuilt : r.2.Built g') (hfills : g'.Fills r.1 shape' g'')
    (hclosed : shape'.isOpen = false) (hsound : g''.Sound) : g.Built g'' := by
  refine ⟨hfills.grows (hr.grows.trans hbuilt.grows) hnew, hsound, ?_⟩
  rintro h ⟨old, hold, hopen⟩
  rw [hfills.shape?] at hold
  split at hold
  . cases hold
    rw [hclosed] at hopen
    cases hopen
  . next hne =>
    rcases hr.fresh h (hbuilt.pending h ⟨old, hold, hopen⟩) with hhas | heq
    . exact hhas
    . exact absurd heq hne

theorem Sound.fillRecord {target : Handle} {fields : Fields} (hg : g.Sound)
    (hinside : ∀ field ∈ fields, g.Has field.2) (hkeys : (Entries.keys fields).Nodup)
    (hfill : g.fillRecord target fields = .ok g') : g'.Sound := by
  apply (fills_fillRecord hfill).sound hg _ rfl
  refine ⟨?_, hkeys⟩
  intro child hchild
  obtain ⟨field, hfield, rfl⟩ := List.mem_map.1 hchild
  exact hinside field hfield

theorem Sound.fillMap {target values : Handle} (hg : g.Sound) (hvalues : g.Has values)
    (hfill : g.fillMap target values = .ok g') : g'.Sound := by
  apply (fills_fillMap hfill).sound hg _ rfl
  refine ⟨?_, trivial⟩
  intro child hchild
  rwa [List.mem_singleton.1 hchild]

end Graph

end SchemaGraph
