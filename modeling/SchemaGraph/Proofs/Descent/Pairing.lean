import SchemaGraph.Proofs.Descent.Frame
import SchemaGraph.Proofs.Document.Addresses
import SchemaGraph.Proofs.Document.Meaning

/-!
This module contains the invariant by which a conversion keeps the meaning of a document. It speaks
of the pairs of a place and a type that was given out for it. A place can have several types,
because a record is given out before its fields are known and because a place may be converted
twice. Each of these types covers what the place reads, as soon as it is not under construction any
more.
-/

namespace SchemaGraph

abbrev Pairing := Place → Handle → Prop

def Pairing.Granted (M : Moments) (S : Pairing) (g : Graph) (place : Place) (value : Json) : Prop :=
  ∀ h, S place h → Accepts M g h value

def Pairing.reading (document : Json) (M : Moments) (S : Pairing) (place : Place) (g : Graph)
    (value : Json) : Prop :=
  place.Reads document M (S.Granted M g) value

/--
The invariant. The types of `O` are under construction. There are no open maps, so the maps that
were joined have the values still that they were read with.
-/
structure Kept (document : Json) (M : Moments) (O S : Pairing) (s : State) : Prop where
  reads : s.document = document
  sound : s.graph.Sound
  maps h : s.graph.shape? h ≠ some (.map .pending)
  joined {loc reads} : .joined loc reads ∈ s.journal → s.graph.Reads reads
  has {place h} : S place h → s.graph.Has h
  memo {place h} : Addressed document place → s.memo.get? place.loc = some h → S place h
  means {place h} : S place h → O place h ∨ s.graph.Covers M (S.reading document M place) h

structure Reached (document : Json) (M : Moments) (O S : Pairing) (s : State) (S' : Pairing)
    (t : State) : Prop where
  pairs {place h} : S place h → S' place h
  evolves : s.graph.Evolves t.graph
  kept : Kept document M O S' t

structure Sense where
  holds : (Place → Json → Prop) → Json → Prop
  mono {A B : Place → Json → Prop} {value : Json} :
    (∀ place value, A place value → B place value) → holds A value → holds B value

structure Shown (document : Json) (M : Moments) (O S : Pairing) (s : State) (F : Sense)
    (h : Handle) (S' : Pairing) (t : State) : Prop
    extends Reached document M O S s S' t where
  has : t.graph.Has h
  covers : t.graph.Covers M (fun g value => F.holds (S'.Granted M g) value) h

structure ShownAll (document : Json) (M : Moments) (O S : Pairing) (s : State) (F : Sense)
    (hs : List Handle) (S' : Pairing) (t : State) : Prop
    extends Reached document M O S s S' t where
  has : ∀ h ∈ hs, t.graph.Has h
  covers : ∀ g, t.graph.Evolves g → ∀ value, F.holds (S'.Granted M g) value →
    ∃ h ∈ hs, Accepts M g h value

namespace Sense

def admits (place : Place) : Sense where
  holds A value := A place value
  mono hAB h := hAB _ _ h

def or (F F' : Sense) : Sense where
  holds A value := F.holds A value ∨ F'.holds A value
  mono hAB h := h.imp (F.mono hAB) (F'.mono hAB)

def reads (document : Json) (M : Moments) (place : Place) : Sense where
  holds A value := place.Reads document M A value
  mono hAB h := h.mono hAB

def named (M : Moments) (place : Place) (name : String) : Sense where
  holds A value := place.FitsNamed M A name value
  mono hAB h := h.mono hAB

def namedOneOf (M : Moments) (place : Place) (names : List String) : Sense where
  holds A value := ∃ name ∈ names, place.FitsNamed M A name value
  mono hAB := by
    rintro ⟨name, hname, hfits⟩
    exact ⟨name, hname, hfits.mono hAB⟩

def someOf (place : Place) (step : Nat → Step) (index : Nat) (nodes : List Json) : Sense where
  holds A value := ∃ (i : Nat) (node : Json), nodes[i]? = some node ∧
    A ⟨node, place.loc.child (step (index + i))⟩ value
  mono hAB := by
    rintro ⟨i, node, hnode, hadmits⟩
    exact ⟨i, node, hnode, hAB _ _ hadmits⟩

end Sense

section

variable {document : Json} {M : Moments} {O S S' S'' : Pairing} {s t u : State} {F F' : Sense}
  {h : Handle} {hs : List Handle} {place : Place}

theorem Pairing.granted_anti {g : Graph} (hpairs : ∀ {place h}, S place h → S' place h)
    {value : Json} (hgranted : S'.Granted M g place value) : S.Granted M g place value :=
  fun h hS => hgranted h (hpairs hS)

theorem Kept.reads_evolve {g : Graph} {reads : List (Handle × Handle)}
    (hs : Kept document M O S s) (hg : s.graph.Evolves g) (hreads : s.graph.Reads reads) :
    g.Reads reads := by
  intro map values hmem
  have hvalues := hreads map values hmem
  unfold Graph.valuesOf? at hvalues ⊢
  split at hvalues
  . next hshape =>
    rw [hg.shape? hshape rfl]
    exact hvalues
  . next hpending => exact absurd hpending (hs.maps map)
  . cases hvalues

theorem Kept.foresees {g : Graph} (hs : Kept document M O S s) (hg : s.graph.Evolves g)
    (loc : Location) : s.Foresees loc g :=
  fun _ _ hmem _ => hs.reads_evolve hg (hs.joined hmem)

theorem Kept.evolve {g : Graph} (hs : Kept document M O S s) (hg : s.graph.Evolves g)
    (hsound : g.Sound) (hmaps : ∀ h, g.shape? h ≠ some (.map .pending)) :
    Kept document M O S { s with graph := g } where
  reads := hs.reads
  sound := hsound
  maps := hmaps
  joined hmem := hs.reads_evolve hg (hs.joined hmem)
  has hS := hg.has _ (hs.has hS)
  memo := hs.memo
  means hS := (hs.means hS).imp_right fun hcovers => hcovers.evolve hg

theorem Kept.grown (hs : Kept document M O S s) (hst : s.Grown t) : Kept document M O S t where
  reads := hst.document.trans hs.reads
  sound := hst.sound
  maps := by
    intro h hshape
    have hhas := hst.graph.pending h ⟨_, hshape, rfl⟩
    rw [hst.graph.grows.shape?_eq hhas] at hshape
    exact hs.maps h hshape
  joined := by
    intro loc reads hmem
    obtain ⟨news, hnews, hevents⟩ := hst.journal
    rw [hnews] at hmem
    rcases List.mem_append.1 hmem with hmem | hmem
    . exact hevents _ hmem
    . exact hs.reads_evolve hst.evolves (hs.joined hmem)
  has hS := hst.evolves.has _ (hs.has hS)
  memo hplace hmemo := by
    rw [hst.memo] at hmemo
    exact hs.memo hplace hmemo
  means hS := (hs.means hS).imp_right fun hcovers => hcovers.evolve hst.evolves

theorem Kept.congr (hs : Kept document M O S s) (hdocument : t.document = s.document)
    (hgraph : t.graph = s.graph) (hmemo : t.memo = s.memo)
    (hjournal : ∀ loc reads, .joined loc reads ∈ t.journal → .joined loc reads ∈ s.journal) :
    Kept document M O S t where
  reads := hdocument.trans hs.reads
  sound := by
    rw [hgraph]
    exact hs.sound
  maps := by
    rw [hgraph]
    exact hs.maps
  joined hmem := by
    rw [hgraph]
    exact hs.joined (hjournal _ _ hmem)
  has hS := by
    rw [hgraph]
    exact hs.has hS
  memo hplace hget := by
    rw [hmemo] at hget
    exact hs.memo hplace hget
  means hS := by
    rw [hgraph]
    exact hs.means hS

theorem Kept.pair (hs : Kept document M O S s) (hhas : s.graph.Has h)
    (hmeans : O place h ∨ s.graph.Covers M (S.reading document M place) h) :
    Kept document M O (fun q k => S q k ∨ q = place ∧ k = h) s where
  reads := hs.reads
  sound := hs.sound
  maps := hs.maps
  joined := hs.joined
  has := by
    rintro q k (hS | ⟨-, rfl⟩)
    . exact hs.has hS
    . exact hhas
  memo hq hget := Or.inl (hs.memo hq hget)
  means := by
    -- A further pair makes the reading of every place smaller, so what was covered stays covered.
    have hanti : ∀ {q k}, s.graph.Covers M (S.reading document M q) k → s.graph.Covers M
        (Pairing.reading document M (fun q k => S q k ∨ q = place ∧ k = h) q) k := by
      intro q k hcovers
      apply hcovers.mono
      intro g' _ value hreads
      exact hreads.mono fun q value => Pairing.granted_anti (fun hS => Or.inl hS)
    rintro q k (hS | ⟨rfl, rfl⟩)
    . exact (hs.means hS).imp_right hanti
    . exact hmeans.imp_right hanti

theorem Kept.recorded (hs : Kept document M O S s) (hplace : Addressed document place)
    (hS : S place h) : Kept document M O S (s.recorded place.loc h) where
  reads := hs.reads
  sound := hs.sound
  maps := hs.maps
  joined hmem := by
    rcases List.mem_cons.1 hmem with heq | hmem
    . cases heq
    . exact hs.joined hmem
  has := hs.has
  memo := by
    intro q k hq hget
    rw [State.get?_recorded] at hget
    split at hget
    . next hloc =>
      cases hget
      rwa [← hplace.unique hq hloc]
    . exact hs.memo hq hget
  means := hs.means

theorem Kept.opened (hs : Kept document M O S s) (place : Place) (h : Handle) :
    Kept document M (fun q k => O q k ∨ q = place ∧ k = h) S s :=
  ⟨hs.reads, hs.sound, hs.maps, hs.joined, hs.has, hs.memo,
    fun hS => (hs.means hS).imp_left Or.inl⟩

theorem Kept.closed (hs : Kept document M (fun q k => O q k ∨ q = place ∧ k = h) S s)
    (hcovers : s.graph.Covers M (S.reading document M place) h) : Kept document M O S s := by
  refine ⟨hs.reads, hs.sound, hs.maps, hs.joined, hs.has, hs.memo, ?_⟩
  intro q k hS
  rcases hs.means hS with (hO | ⟨rfl, rfl⟩) | hcovers'
  . exact Or.inl hO
  . exact Or.inr hcovers
  . exact Or.inr hcovers'

theorem Reached.refl (hs : Kept document M O S s) : Reached document M O S s S s :=
  ⟨id, Graph.Evolves.refl _, hs⟩

theorem Reached.trans (hst : Reached document M O S s S' t)
    (htu : Reached document M O S' t S'' u) : Reached document M O S s S'' u :=
  ⟨fun hS => htu.pairs (hst.pairs hS), hst.evolves.trans htu.evolves, htu.kept⟩

theorem Reached.grown (hs : Reached document M O S s S' t) (htu : t.Grown u) :
    Reached document M O S s S' u :=
  ⟨hs.pairs, hs.evolves.trans htu.evolves, hs.kept.grown htu⟩

theorem ShownAll.joined {loc : Location} (hall : ShownAll document M O S s F hs S' t)
    (hadded : Unification.Added M loc (Unification.anyOf M hs) t h u) :
    Shown document M O S s F h S' u := by
  have hreached := hall.toReached.grown hadded.toGrown
  refine ⟨hreached, hadded.has, hadded.covers.mono ?_⟩
  intro g hg value hvalue
  exact ⟨hreached.kept.foresees hg loc, hall.covers g (hadded.evolves.trans hg) value hvalue⟩

theorem Shown.after (hst : Reached document M O S s S' t)
    (hshown : Shown document M O S' t F h S'' u) : Shown document M O S s F h S'' u :=
  ⟨hst.trans hshown.toReached, hshown.has, hshown.covers⟩

theorem Shown.mono (hshown : Shown document M O S s F h S' t)
    (hF : ∀ A value, F'.holds A value → F.holds A value) : Shown document M O S s F' h S' t :=
  ⟨hshown.toReached, hshown.has, hshown.covers.mono fun _ _ _ hvalue => hF _ _ hvalue⟩

theorem ShownAll.mono (hall : ShownAll document M O S s F hs S' t)
    (hF : ∀ A value, F'.holds A value → F.holds A value) : ShownAll document M O S s F' hs S' t :=
  ⟨hall.toReached, hall.has, fun g hg value hvalue => hall.covers g hg value (hF _ _ hvalue)⟩

theorem ShownAll.nil (hs : Kept document M O S s) (hF : ∀ A value, ¬F.holds A value) :
    ShownAll document M O S s F [] S s :=
  ⟨.refl hs, fun _ hmem => (nomatch hmem), fun _ _ _ hvalue => absurd hvalue (hF _ _)⟩

theorem Shown.cons (hshown : Shown document M O S s F h S' t)
    (hrest : ShownAll document M O S' t F' hs S'' u) :
    ShownAll document M O S s (F.or F') (h :: hs) S'' u := by
  refine ⟨hshown.toReached.trans hrest.toReached, ?_, ?_⟩
  . intro k hk
    rcases List.mem_cons.1 hk with rfl | hk
    . exact hrest.evolves.has _ hshown.has
    . exact hrest.has k hk
  . rintro g hg value (hvalue | hvalue)
    . have hvalue' := F.mono (fun _ _ => Pairing.granted_anti hrest.pairs) hvalue
      exact ⟨_, List.mem_cons_self .., hshown.covers g (hrest.evolves.trans hg) value hvalue'⟩
    . obtain ⟨k, hk, haccepts⟩ := hrest.covers g hg value hvalue
      exact ⟨k, List.mem_cons_of_mem _ hk, haccepts⟩

end

end SchemaGraph
