import SchemaGraph.Proofs.Graph.Evolution
import SchemaGraph.Proofs.Reordering.Agreement

/-!
This module contains graphs that mirror each other. Some nodes of the one correspond to nodes of the
other, they have the same shapes as far as corresponding nodes go, and the two tables of shared
nodes list the same of them. Building the same on both sides gives corresponding nodes again. A
shared node that is built on one side only corresponds to nothing until the other side has it, too.
-/

namespace SchemaGraph

open Relator

abbrev Correspondence := Handle → Handle → Prop

def Correspondence.adding (R : Correspondence) (h k : Handle) : Correspondence :=
  fun h' k' => R h' k' ∨ h' = h ∧ k' = k

/--
The shapes are the same when corresponding nodes count as the same and the cases of an enum as a
set.
-/
inductive Shape.Alike (R : Correspondence) : Shape → Shape → Prop
  | primitive (kind : Primitive) : Alike R (.primitive kind) (.primitive kind)
  | string : Alike R .string .string
  | enum {cases cases' : List String} (h : ∀ text, text ∈ cases ↔ text ∈ cases') :
    Alike R (.enum cases) (.enum cases')
  | array {items items' : Handle} (h : R items items') : Alike R (.array items) (.array items')
  | openMap : Alike R (.map .pending) (.map .pending)
  | map {values values' : Handle} (h : R values values') :
    Alike R (.map (.filled values)) (.map (.filled values'))
  | openRecord : Alike R (.record .pending) (.record .pending)
  | record {fields fields' : Fields} (h : fields.Related R fields') :
    Alike R (.record (.filled fields)) (.record (.filled fields'))
  | union {members members' : List Handle} (h : List.Forall₂ R members members') :
    Alike R (.union members) (.union members')
  | nullable {inner inner' : Handle} (h : R inner inner') :
    Alike R (.nullable inner) (.nullable inner')

section Shapes

variable {R R' : Correspondence} {shape shape' : Shape}

theorem Shape.Alike.imp (h : shape.Alike R shape') (hsub : ∀ h k, R h k → R' h k) :
    shape.Alike R' shape' := by
  cases h with
  | primitive kind => exact .primitive kind
  | string => exact .string
  | enum h => exact .enum h
  | array h => exact .array (hsub _ _ h)
  | openMap => exact .openMap
  | map h => exact .map (hsub _ _ h)
  | openRecord => exact .openRecord
  | record h => exact .record (h.imp fun _ _ hfield => ⟨hfield.1, hsub _ _ hfield.2⟩)
  | union h => exact .union (h.imp hsub)
  | nullable h => exact .nullable (hsub _ _ h)

theorem Shape.Alike.symm (h : shape.Alike R shape') : shape'.Alike (flip R) shape := by
  cases h with
  | primitive kind => exact .primitive kind
  | string => exact .string
  | enum h => exact .enum fun text => (h text).symm
  | array h => exact .array h
  | openMap => exact .openMap
  | map h => exact .map h
  | openRecord => exact .openRecord
  | record h => exact .record (h.imp fun _ _ hfield => ⟨hfield.1.symm, hfield.2⟩).flip
  | union h => exact .union h.flip
  | nullable h => exact .nullable h

theorem Shape.Alike.rank? (h : shape.Alike R shape') : shape'.rank? = shape.rank? := by
  cases h with
  | _ => rfl

theorem Shape.Alike.admitsNull (h : shape.Alike R shape') :
    Graph.admitsNull shape' = Graph.admitsNull shape := by
  cases h with
  | primitive kind => rfl
  | _ => rfl

theorem Shape.Alike.of_eq {a b c : Shape} (hab : a.Alike Eq b) (hbc : b.Alike R c) :
    a.Alike R c := by
  cases hab with
  | enum h =>
    cases hbc with
    | enum h' => exact .enum fun text => (h text).trans (h' text)
  | array heq => rwa [heq]
  | map heq => rwa [heq]
  | record h =>
    have heq := h.imp fun field field' hfield => Prod.ext hfield.1 hfield.2
    rw [List.forall₂_eq_eq_eq] at heq
    rwa [heq]
  | union h =>
    rw [List.forall₂_eq_eq_eq] at h
    rwa [h]
  | nullable heq => rwa [heq]
  | _ => exact hbc

theorem Key.same_of_alike (hR : RightUnique R) {key a b : Key}
    (ha : key.shape.Alike R a.shape) (hb : key.shape.Alike R b.shape) : a.same b = true := by
  cases key with
  | primitive kind =>
    cases a <;> cases ha
    cases b <;> cases hb
    exact Key.same_refl _
  | string =>
    cases a <;> cases ha
    cases b <;> cases hb
    rfl
  | enum cases =>
    cases a <;> cases ha
    cases b <;> cases hb
    next ha _ hb => exact sameElements_iff.2 fun text => (ha text).symm.trans (hb text)
  | array items =>
    cases a <;> cases ha
    cases b <;> cases hb
    next ha _ hb => exact decide_eq_true (hR ha hb)
  | map values =>
    cases a <;> cases ha
    cases b <;> cases hb
    next ha _ hb => exact decide_eq_true (hR ha hb)
  | union members =>
    cases a <;> cases ha
    cases b <;> cases hb
    next ha _ hb =>
      rw [List.right_unique_forall₂' hR ha hb]
      exact Key.same_refl _
  | nullable inner =>
    cases a <;> cases ha
    cases b <;> cases hb
    next ha _ hb => exact decide_eq_true (hR ha hb)

end Shapes

theorem Ascends.eq_of_mem_iff {α : Type} {rank? : α → Option Nat} {low low' high high' : Nat}
    {as bs : List α} (has : Ascends rank? low high as) (hbs : Ascends rank? low' high' bs)
    (h : ∀ a, a ∈ as ↔ a ∈ bs) : as = bs := by
  induction as generalizing low low' bs with
  | nil =>
    cases bs with
    | nil => rfl
    | cons b rest => cases (h b).2 (List.mem_cons_self ..)
  | cons a rest ih =>
    cases bs with
    | nil => cases (h a).1 (List.mem_cons_self ..)
    | cons b rest' =>
      obtain ⟨rank, ha, -, -, hrest⟩ := has
      obtain ⟨rank', hb, -, -, hrest'⟩ := hbs
      -- The element of the least rank is the first one on both sides.
      have hlt : ∀ c ∈ rest, rank? c ≠ some rank := by
        intro c hc heq
        obtain ⟨_, hrank, hle⟩ := hrest.exists_rank hc
        cases heq.symm.trans hrank
        omega
      have hlt' : ∀ c ∈ rest', rank? c ≠ some rank' := by
        intro c hc heq
        obtain ⟨_, hrank, hle⟩ := hrest'.exists_rank hc
        cases heq.symm.trans hrank
        omega
      have hfirst : a = b := by
        rcases List.mem_cons.1 ((h a).1 (List.mem_cons_self ..)) with heq | hmem
        . exact heq
        . rcases List.mem_cons.1 ((h b).2 (List.mem_cons_self ..)) with heq | hmem'
          . exact heq.symm
          . obtain ⟨_, hrank, hle⟩ := hrest'.exists_rank hmem
            obtain ⟨_, hrank', hle'⟩ := hrest.exists_rank hmem'
            cases ha.symm.trans hrank
            cases hb.symm.trans hrank'
            omega
      subst hfirst
      cases ha.symm.trans hb
      congr 1
      apply ih hrest hrest'
      intro c
      have hne : c ∈ rest → c ≠ a := by
        rintro hc rfl
        exact hlt c hc ha
      have hne' : c ∈ rest' → c ≠ a := by
        rintro hc rfl
        exact hlt' c hc hb
      have hc := h c
      simp only [List.mem_cons] at hc
      constructor
      . exact fun hmem => (hc.1 (Or.inr hmem)).resolve_left (hne hmem)
      . exact fun hmem => (hc.2 (Or.inr hmem)).resolve_left (hne' hmem)

namespace Graph

theorem alike_of_same {g : Graph} {key key' : Key} (hsame : key.same key' = true)
    (h : g.Allows key.shape) (h' : g.Allows key'.shape) : key.shape.Alike Eq key'.shape := by
  cases key with
  | primitive kind =>
    cases key' with
    | primitive kind' =>
      rw [of_decide_eq_true hsame]
      exact .primitive kind'
    | _ => cases hsame
  | string =>
    cases key' with
    | string => exact .string
    | _ => cases hsame
  | enum cases =>
    cases key' with
    | enum cases' => exact .enum (sameElements_iff.1 hsame)
    | _ => cases hsame
  | array items =>
    cases key' with
    | array items' => exact .array (of_decide_eq_true hsame)
    | _ => cases hsame
  | map values =>
    cases key' with
    | map values' => exact .map (of_decide_eq_true hsame)
    | _ => cases hsame
  | union members =>
    cases key' with
    | union members' =>
      rw [h.2.eq_of_mem_iff h'.2 (sameElements_iff.1 hsame)]
      exact .union (List.forall₂_refl _)
    | _ => cases hsame
  | nullable inner =>
    cases key' with
    | nullable inner' => exact .nullable (of_decide_eq_true hsame)
    | _ => cases hsame

def Lists (g : Graph) (h : Handle) : Prop :=
  ∃ key, (key, h) ∈ g.shared

structure Tidy (g : Graph) : Prop extends g.Sound where
  single {key key' h h'} : (key, h) ∈ g.shared → (key', h') ∈ g.shared →
    key.same key' = true → h = h'

structure Mirrors (R : Correspondence) (g g' : Graph) : Prop where
  tidy : g.Tidy
  tidy' : g'.Tidy
  unique : BiUnique R
  alike {h k} : R h k → ∃ shape shape', g.shape? h = some shape ∧ g'.shape? k = some shape' ∧
    shape.Alike R shape'
  lists {h k} : R h k → (g.Lists h ↔ g'.Lists k)

variable {R : Correspondence} {g g' g₁ g₁' : Graph} {a b h k : Handle} {shape shape' : Shape}

theorem has_of_lists (hg : g.Sound) (hlists : g.Lists h) : g.Has h := by
  obtain ⟨key, hmem⟩ := hlists
  exact has_of_shape? (hg.shared hmem)

theorem tidy_empty : empty.Tidy :=
  ⟨sound_empty, fun hmem => nomatch hmem⟩

namespace Mirrors

theorem symm (hm : g.Mirrors R g') : g'.Mirrors (flip R) g where
  tidy := hm.tidy'
  tidy' := hm.tidy
  unique := ⟨fun _ _ _ h h' => hm.unique.2 h h', fun _ _ _ h h' => hm.unique.1 h h'⟩
  alike hR := by
    obtain ⟨shape, shape', hshape, hshape', halike⟩ := hm.alike hR
    exact ⟨shape', shape, hshape', hshape, halike.symm⟩
  lists hR := (hm.lists hR).symm

theorem has (hm : g.Mirrors R g') (hR : R h k) : g.Has h := by
  obtain ⟨shape, shape', hshape, -, -⟩ := hm.alike hR
  exact has_of_shape? hshape

theorem shape? (hm : g.Mirrors R g') (hR : R h k) (hshape : g.shape? h = some shape) :
    ∃ shape', g'.shape? k = some shape' ∧ shape.Alike R shape' := by
  obtain ⟨old, shape', hold, hshape', halike⟩ := hm.alike hR
  cases hold.symm.trans hshape
  exact ⟨shape', hshape', halike⟩

theorem rank? (hm : g.Mirrors R g') (hR : R h k) : g'.rank? k = g.rank? h := by
  obtain ⟨shape, shape', hshape, hshape', halike⟩ := hm.alike hR
  rw [rank?_of_shape? hshape, rank?_of_shape? hshape', halike.rank?]

theorem ascends (hm : g.Mirrors R g') {members members' : List Handle} {low high : Nat}
    (h : List.Forall₂ R members members') (hascends : Ascends g.rank? low high members) :
    Ascends g'.rank? low high members' := by
  induction h generalizing low with
  | nil => trivial
  | cons hR _ ih =>
    obtain ⟨rank, hrank, hlow, hhigh, hrest⟩ := hascends
    exact ⟨rank, (hm.rank? hR).trans hrank, hlow, hhigh, ih hrest⟩

theorem allows (hm : g.Mirrors R g') (halike : shape.Alike R shape') (hallows : g.Allows shape) :
    g'.Allows shape' := by
  cases halike with
  | record h =>
    change (Entries.keys _).Nodup
    rw [← h.keys_eq]
    exact hallows
  | union h => exact ⟨h.length_eq ▸ hallows.1, hm.ascends h hallows.2⟩
  | nullable hR =>
    obtain ⟨old, hold, hnull⟩ := hallows
    obtain ⟨new, hnew, hinner⟩ := hm.shape? hR hold
    exact ⟨new, hnew, hinner.admitsNull.trans hnull⟩
  | _ => trivial

theorem inside (hm : g.Mirrors R g') (halike : shape.Alike R shape') :
    ∀ child ∈ shape.children, g.Has child := by
  intro child hchild
  cases halike with
  | array hR => exact List.mem_singleton.1 hchild ▸ hm.has hR
  | map hR => exact List.mem_singleton.1 hchild ▸ hm.has hR
  | record h =>
    obtain ⟨field, hfield, rfl⟩ := List.mem_map.1 hchild
    obtain ⟨field', -, -, hR⟩ := exists_of_mem_of_forall₂ h hfield
    exact hm.has hR
  | union h =>
    obtain ⟨member', -, hR⟩ := exists_of_mem_of_forall₂ h hchild
    exact hm.has hR
  | nullable hR => exact List.mem_singleton.1 hchild ▸ hm.has hR
  | _ => cases hchild

theorem takes (hm : g.Mirrors R g') (halike : shape.Alike R shape') (hallows : g.Allows shape) :
    g.Takes shape ∧ g'.Takes shape' :=
  ⟨⟨hm.inside halike, hallows⟩, hm.symm.inside halike.symm, hm.allows halike hallows⟩

theorem grow (hm : g.Mirrors R g') (hgrows : g.Grows g₁) (htidy : g₁.Tidy)
    (hlists : ∀ h, g.Has h → (g₁.Lists h ↔ g.Lists h)) : g₁.Mirrors R g' where
  tidy := htidy
  tidy' := hm.tidy'
  unique := hm.unique
  alike hR := by
    obtain ⟨shape, shape', hshape, hshape', halike⟩ := hm.alike hR
    exact ⟨shape, shape', hgrows _ _ hshape, hshape', halike⟩
  lists hR := (hlists _ (hm.has hR)).trans (hm.lists hR)

theorem adding (hm : g.Mirrors R g') (hshape : g.shape? a = some shape)
    (hshape' : g'.shape? b = some shape') (halike : shape.Alike R shape')
    (hright : ∀ k, R a k → k = b) (hleft : ∀ h, R h b → h = a)
    (hlists : g.Lists a ↔ g'.Lists b) : g.Mirrors (R.adding a b) g' where
  tidy := hm.tidy
  tidy' := hm.tidy'
  unique := by
    constructor
    . rintro h k h' (hR | ⟨rfl, rfl⟩) (hR' | ⟨rfl, heq⟩)
      . exact hm.unique.1 hR hR'
      . exact hleft h (heq ▸ hR)
      . exact (hleft k hR').symm
      . rfl
    . rintro h k k' (hR | ⟨rfl, rfl⟩) (hR' | ⟨heq, rfl⟩)
      . exact hm.unique.2 hR hR'
      . exact hright k (heq ▸ hR)
      . exact (hright k' hR').symm
      . rfl
  alike := by
    rintro h k (hR | ⟨rfl, rfl⟩)
    . obtain ⟨shape, shape', hshape, hshape', halike⟩ := hm.alike hR
      exact ⟨shape, shape', hshape, hshape', halike.imp fun _ _ => Or.inl⟩
    . exact ⟨shape, shape', hshape, hshape', halike.imp fun _ _ => Or.inl⟩
  lists := by
    rintro h k (hR | ⟨rfl, rfl⟩)
    . exact hm.lists hR
    . exact hlists

end Mirrors

structure Finds (g : Graph) (key : Key) (r : Handle × Graph) : Prop where
  grows : g.Grows r.2
  tidy : r.2.Tidy
  entry : ∃ key' : Key, key'.same key = true ∧ (key', r.1) ∈ r.2.shared
  lists h : g.Has h → (r.2.Lists h ↔ g.Lists h)

theorem finds_share {key : Key} (hg : g.Tidy) (hkey : g.Takes key.shape)
    (hint : Option NameHint) : g.Finds key (g.share key key.shape hint) := by
  obtain ⟨_, -, hgives⟩ := gives_share hg.toSound hkey hint
  have hgrows := hgives.grows
  have hsound := hgives.sound
  clear hgives
  unfold share at hgrows hsound ⊢
  cases hshared : g.shared? key with
  | some h =>
    rw [hshared] at hgrows hsound
    obtain ⟨key', hsame, hmem⟩ := shared?_eq_some hshared
    cases hint with
    | none => exact ⟨hgrows, hg, ⟨key', hsame, hmem⟩, fun _ _ => Iff.rfl⟩
    | some hint =>
      have htable : (g.addHint h hint).shared = g.shared := shared_addHint g h hint
      refine ⟨hgrows, ⟨hsound, ?_⟩, ⟨key', hsame, ?_⟩, ?_⟩
      . dsimp only
        rw [htable]
        exact hg.single
      . dsimp only
        rwa [htable]
      . intro k _
        unfold Lists
        dsimp only
        rw [htable]
  | none =>
    rw [hshared] at hgrows hsound
    have hnew : ∀ key' h, (key', h) ∈ g.shared → key'.same key = false := by
      intro key' h hmem
      rw [← Bool.not_eq_true]
      intro hsame
      unfold shared? at hshared
      rw [Option.map_eq_none_iff, List.find?_eq_none] at hshared
      exact hshared _ hmem hsame
    refine ⟨hgrows, ⟨hsound, ?_⟩, ⟨key, Key.same_refl key, List.mem_cons_self ..⟩, ?_⟩
    . intro key₁ key₂ h₁ h₂ hmem hmem' hsame
      rcases List.mem_cons.1 hmem with heq | hmem
      . rcases List.mem_cons.1 hmem' with heq' | hmem'
        . cases heq
          cases heq'
          rfl
        . cases heq
          cases (hnew _ _ hmem').symm.trans (Key.same_symm hsame)
      . rcases List.mem_cons.1 hmem' with heq' | hmem'
        . cases heq'
          cases (hnew _ _ hmem).symm.trans hsame
        . exact hg.single hmem hmem' hsame
    . intro h hhas
      constructor
      . rintro ⟨key', hmem⟩
        rcases List.mem_cons.1 hmem with heq | hmem
        . cases heq
          exact absurd hhas (not_has_push g _)
        . exact ⟨key', hmem⟩
      . rintro ⟨key', hmem⟩
        exact ⟨key', List.mem_cons_of_mem _ hmem⟩

structure Joins (R : Correspondence) (g g' : Graph) (r r' : Handle × Graph)
    (R' : Correspondence) : Prop where
  sub h k : R h k → R' h k
  evolves : g.Evolves r.2
  evolves' : g'.Evolves r'.2
  mirrors : r.2.Mirrors R' r'.2
  related : R' r.1 r'.1

namespace Mirrors

theorem refl_joins (hm : g.Mirrors R g') (hR : R a b) : Joins R g g' (a, g) (b, g') R :=
  ⟨fun _ _ => id, .refl g, .refl g', hm, hR⟩

theorem listed (hm : g.Mirrors R g') {key₁ key₁' key key' : Key} (hmem : (key, a) ∈ g.shared)
    (hmem' : (key', b) ∈ g'.shared) (hsame : key.same key₁ = true)
    (hsame' : key'.same key₁' = true) (hallows : g.Allows key₁.shape)
    (halike : key₁.shape.Alike R key₁'.shape) : g.Mirrors (R.adding a b) g' := by
  have hshape := hm.tidy.shared hmem
  have hshape' := hm.tidy'.shared hmem'
  -- The nodes have the shapes that were asked for, up to the cases of an enum.
  have heq := alike_of_same hsame (hm.tidy.allows hshape) hallows
  have heq' := alike_of_same hsame' (hm.tidy'.allows hshape') (hm.allows halike hallows)
  have hshapes : key.shape.Alike R key'.shape := (heq'.of_eq (heq.of_eq halike).symm).symm
  apply hm.adding hshape hshape' hshapes
  . intro k hR
    obtain ⟨key₂, hmem₂⟩ := (hm.lists hR).1 ⟨key, hmem⟩
    obtain ⟨shape, hk, halike₂⟩ := hm.shape? hR hshape
    cases (hm.tidy'.shared hmem₂).symm.trans hk
    exact hm.tidy'.single hmem₂ hmem' (Key.same_of_alike hm.unique.2 halike₂ hshapes)
  . intro h hR
    obtain ⟨key₂, hmem₂⟩ := (hm.lists hR).2 ⟨key', hmem'⟩
    obtain ⟨shape, hh, halike₂⟩ := hm.symm.shape? hR hshape'
    cases (hm.tidy.shared hmem₂).symm.trans hh
    exact hm.tidy.single hmem₂ hmem (Key.same_of_alike hm.symm.unique.2 halike₂ hshapes.symm)
  . exact ⟨fun _ => ⟨key', hmem'⟩, fun _ => ⟨key, hmem⟩⟩

variable {key key' : Key} {hint : Option NameHint}

theorem share_left (hm : g.Mirrors R g') (hkey : g.Takes key.shape) (hint : Option NameHint) :
    (g.share key key.shape hint).2.Mirrors R g' := by
  have hfinds := finds_share hm.tidy hkey hint
  exact hm.grow hfinds.grows hfinds.tidy hfinds.lists

theorem share (hm : g.Mirrors R g') (halike : key.shape.Alike R key'.shape)
    (hallows : g.Allows key.shape) (hint hint' : Option NameHint) :
    ∃ R', Joins R g g' (g.share key key.shape hint) (g'.share key' key'.shape hint') R' := by
  obtain ⟨htakes, htakes'⟩ := hm.takes halike hallows
  have hfinds := finds_share hm.tidy htakes hint
  have hfinds' := finds_share hm.tidy' htakes' hint'
  obtain ⟨key₀, hsame, hmem⟩ := hfinds.entry
  obtain ⟨key₀', hsame', hmem'⟩ := hfinds'.entry
  have hgrown := (hm.share_left htakes hint).symm.share_left htakes' hint'
  refine ⟨R.adding _ _, fun _ _ => Or.inl, hfinds.grows.evolves, hfinds'.grows.evolves, ?_,
    Or.inr ⟨rfl, rfl⟩⟩
  exact hgrown.symm.listed hmem hmem' hsame hsame' (hfinds.grows.evolves.allows hallows) halike

theorem push (hm : g.Mirrors R g') {node node' : Node}
    (halike : node.shape.Alike R node'.shape) (hallows : g.Allows node.shape) :
    ∃ R', Joins R g g' (g.push node) (g'.push node') R' := by
  obtain ⟨htakes, htakes'⟩ := hm.takes halike hallows
  have hgives := gives_push hm.tidy.toSound htakes
  have hgives' := gives_push hm.tidy'.toSound htakes'
  have hgrown := (hm.grow hgives.grows ⟨hgives.sound, hm.tidy.single⟩ fun _ _ => Iff.rfl).symm.grow
    hgives'.grows ⟨hgives'.sound, hm.tidy'.single⟩ fun _ _ => Iff.rfl
  refine ⟨R.adding _ _, fun _ _ => Or.inl, hgives.evolves, hgives'.evolves, ?_,
    Or.inr ⟨rfl, rfl⟩⟩
  apply hgrown.symm.adding hgives.shape hgives'.shape halike
  . exact fun k hR => absurd (hm.has hR) (not_has_push g node)
  . exact fun h hR => absurd (hm.symm.has hR) (not_has_push g' node')
  . constructor
    . exact fun hlists => absurd (has_of_lists hm.tidy.toSound hlists) (not_has_push g node)
    . exact fun hlists => absurd (has_of_lists hm.tidy'.toSound hlists) (not_has_push g' node')

theorem addNullable (hm : g.Mirrors R g') (hR : R a b) (hint hint' : NameHint) :
    ∃ R', Joins R g g' (g.addNullable a hint) (g'.addNullable b hint') R' := by
  obtain ⟨shape, shape', hshape, hshape', halike⟩ := hm.alike hR
  unfold Graph.addNullable
  rw [hshape, hshape', Option.any_some, Option.any_some, halike.admitsNull]
  split
  . exact ⟨R, hm.refl_joins hR⟩
  . next hnull =>
    have hkeys : (Key.nullable a).shape.Alike R (Key.nullable b).shape := .nullable hR
    exact hm.share hkeys ⟨shape, hshape, Bool.eq_false_iff.2 hnull⟩ _ _

theorem fills (hm : g.Mirrors R g') (hR : R a b) (hfills : g.Fills a shape g₁)
    (hfills' : g'.Fills b shape' g₁') (halike : shape.Alike R shape')
    (hallows : g.Allows shape) (hnested : shape.nested = []) : g₁.Mirrors R g₁' := by
  obtain ⟨htakes, htakes'⟩ := hm.takes halike hallows
  have hnested' : shape'.nested = [] := by
    cases halike with
    | array => cases hnested
    | union h =>
      cases hnested
      cases h
      rfl
    | nullable => cases hnested
    | _ => rfl
  refine ⟨⟨hfills.sound hm.tidy.toSound htakes hnested, ?_⟩,
    ⟨hfills'.sound hm.tidy'.toSound htakes' hnested', ?_⟩, hm.unique, ?_, ?_⟩
  . rw [hfills.shared]
    exact hm.tidy.single
  . rw [hfills'.shared]
    exact hm.tidy'.single
  . intro h k hR'
    rw [hfills.shape?, hfills'.shape?]
    by_cases heq : h = a
    . subst heq
      rw [if_pos rfl, if_pos (hm.unique.2 hR' hR)]
      exact ⟨shape, shape', rfl, rfl, halike⟩
    . have heq' : k ≠ b := by
        rintro rfl
        exact heq (hm.unique.1 hR' hR)
      rw [if_neg heq, if_neg heq']
      exact hm.alike hR'
  . intro h k hR'
    unfold Lists
    rw [hfills.shared, hfills'.shared]
    exact hm.lists hR'

end Mirrors

end Graph

end SchemaGraph
