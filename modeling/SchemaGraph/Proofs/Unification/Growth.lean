import SchemaGraph.Proofs.Alike
import SchemaGraph.Proofs.Descent.Faults
import SchemaGraph.Proofs.Graph.Acceptance

/-!
This module contains what becomes of a state while types are unified. Nodes without open slots are
added to the graph, merges and joins are noted in the journal, and nothing else changes, whether the
end is a type or a fault. An open map may be joined all the same, and it is read with itself as its
values then. So what a unification covers depends on whether the maps have the values in the end
that they were read with.
-/

namespace SchemaGraph

def Location.Within (outer inner : Location) : Prop :=
  outer.steps <+: inner.steps

theorem Location.Within.refl (loc : Location) : loc.Within loc :=
  List.prefix_rfl

theorem Location.Within.of_child {loc inner : Location} {step : Step}
    (h : (loc.child step).Within inner) : loc.Within inner :=
  (List.prefix_append _ _).trans h

def Graph.Reads (g : Graph) (reads : List (Handle × Handle)) : Prop :=
  ∀ map values, (map, values) ∈ reads → g.valuesOf? map = some values

def Event.IsUnifying (g : Graph) : Event → Prop
  | .merged _ _ => True
  | .joined _ reads => g.Reads reads
  | _ => False

namespace State

/--
The maps that were joined at a location or inside it have the values in `g` that they were read
with.
-/
def Foresees (s : State) (loc : Location) (g : Graph) : Prop :=
  ∀ loc' reads, .joined loc' reads ∈ s.journal → loc.Within loc' → g.Reads reads

structure Grown (s t : State) : Prop where
  document : t.document = s.document
  memo : t.memo = s.memo
  active : t.active = s.active
  reentered : t.reentered = s.reentered
  graph : s.graph.Built t.graph
  journal : ∃ news, t.journal = news ++ s.journal ∧ ∀ event ∈ news, event.IsUnifying t.graph

end State

variable {s t u : State} {g g' : Graph} {loc : Location} {reads : List (Handle × Handle)}

theorem Graph.Grows.valuesOf? {map values : Handle} (hg : g.Grows g')
    (hvalues : g.valuesOf? map = some values) : g'.valuesOf? map = some values := by
  unfold Graph.valuesOf? at hvalues ⊢
  split at hvalues
  . next hshape =>
    rw [hg map _ hshape]
    exact hvalues
  . next hshape =>
    rw [hg map _ hshape]
    exact hvalues
  . cases hvalues

theorem Graph.exists_valuesOf? {map : Handle} {values : Slot Handle}
    (hshape : g.shape? map = some (.map values)) : ∃ values, g.valuesOf? map = some values := by
  unfold Graph.valuesOf?
  rw [hshape]
  cases values with
  | pending => exact ⟨map, rfl⟩
  | filled values => exact ⟨values, rfl⟩

theorem Graph.Reads.grow (hreads : g.Reads reads) (hg : g.Grows g') : g'.Reads reads :=
  fun map values hmem => hg.valuesOf? (hreads map values hmem)

theorem Graph.mem_valuesRead {maps : List Handle} {map values : Handle} :
    (map, values) ∈ g.valuesRead maps ↔ map ∈ maps ∧ g.valuesOf? map = some values := by
  unfold Graph.valuesRead
  rw [List.mem_filterMap]
  constructor
  . rintro ⟨map', hmap, hread⟩
    obtain ⟨values', hvalues, heq⟩ := Option.map_eq_some_iff.1 hread
    cases heq
    exact ⟨hmap, hvalues⟩
  . rintro ⟨hmap, hvalues⟩
    exact ⟨map, hmap, by rw [hvalues]; rfl⟩

theorem Graph.Sound.has_of_mem_valuesRead (hg : g.Sound) {maps : List Handle} {values : Handle}
    (hmem : values ∈ (g.valuesRead maps).map Prod.snd) : g.Has values := by
  obtain ⟨⟨map, values'⟩, hread, rfl⟩ := List.mem_map.1 hmem
  exact hg.has_of_valuesOf? (mem_valuesRead.1 hread).2

theorem Graph.reads_valuesRead (g : Graph) (maps : List Handle) : g.Reads (g.valuesRead maps) :=
  fun _ _ hmem => (mem_valuesRead.1 hmem).2

theorem Event.IsUnifying.grow {event : Event} (hevent : event.IsUnifying g) (hg : g.Grows g') :
    event.IsUnifying g' := by
  cases event with
  | merged loc records => trivial
  | joined loc reads => exact Graph.Reads.grow hevent hg
  | _ => cases hevent

namespace State

theorem Foresees.earlier (ht : t.Foresees loc g) (hjournal : s.journal <:+ t.journal) :
    s.Foresees loc g :=
  fun loc' reads hmem => ht loc' reads (hjournal.subset hmem)

theorem Foresees.inside {step : Step} (hs : s.Foresees loc g) : s.Foresees (loc.child step) g :=
  fun loc' reads hmem hwithin => hs loc' reads hmem hwithin.of_child

theorem Foresees.covers {M : Moments} {P : Graph → Json → Prop} {r : Handle}
    (h : g.Covers M (fun g value => s.Foresees loc g ∧ P g value) r) (hg : g.Evolves g')
    (hjournal : s.journal <:+ t.journal) :
    g'.Covers M (fun g value => t.Foresees loc g ∧ P g value) r := by
  apply (h.evolve hg).mono
  rintro g - value ⟨hforesees, hvalue⟩
  exact ⟨hforesees.earlier hjournal, hvalue⟩

namespace Grown

theorem refl (hs : s.graph.Sound) : s.Grown s :=
  ⟨rfl, rfl, rfl, rfl, .refl hs, [], rfl, fun _ hmem => nomatch hmem⟩

theorem trans (hst : s.Grown t) (htu : t.Grown u) : s.Grown u := by
  refine ⟨htu.document.trans hst.document, htu.memo.trans hst.memo, htu.active.trans hst.active,
    htu.reentered.trans hst.reentered, hst.graph.trans htu.graph, ?_⟩
  obtain ⟨news, hnews, hevents⟩ := hst.journal
  obtain ⟨news', hnews', hevents'⟩ := htu.journal
  refine ⟨news' ++ news, by rw [hnews', hnews, List.append_assoc], ?_⟩
  intro event hmem
  rcases List.mem_append.1 hmem with hmem | hmem
  . exact hevents' event hmem
  . exact (hevents event hmem).grow htu.graph.grows

theorem sound (hst : s.Grown t) : t.graph.Sound :=
  hst.graph.sound

theorem evolves (hst : s.Grown t) : s.graph.Evolves t.graph :=
  hst.graph.evolves

theorem suffix (hst : s.Grown t) : s.journal <:+ t.journal := by
  obtain ⟨news, hnews, -⟩ := hst.journal
  exact ⟨news, hnews.symm⟩

theorem build (hg : s.graph.Built g) : s.Grown { s with graph := g } :=
  ⟨rfl, rfl, rfl, rfl, hg, [], rfl, fun _ hmem => nomatch hmem⟩

theorem note (hs : s.graph.Sound) {event : Event} (hevent : event.IsUnifying s.graph) :
    s.Grown { s with journal := event :: s.journal } := by
  refine ⟨rfl, rfl, rfl, rfl, .refl hs, [event], rfl, ?_⟩
  intro event' hmem
  rwa [List.mem_singleton.1 hmem]

theorem keeps {P : State → Prop} (hst : s.Grown t)
    (hgraph : ∀ s g, s.graph.Evolves g → P s → P { s with graph := g })
    (hnote : ∀ s event, Event.IsUnifying t.graph event → P s →
      P { s with journal := event :: s.journal })
    (hs : P s) : P t := by
  obtain ⟨news, hnews, hevents⟩ := hst.journal
  have hall : P { s with graph := t.graph, journal := news ++ s.journal } := by
    clear hnews
    induction news with
    | nil => exact hgraph s t.graph hst.evolves hs
    | cons event rest ih =>
      exact hnote _ event (hevents event (List.mem_cons_self ..))
        (ih fun event hmem => hevents event (List.mem_cons_of_mem _ hmem))
  have heq : t = { s with graph := t.graph, journal := news ++ s.journal } := by
    rw [← hnews]
    cases t
    cases hst.document
    cases hst.memo
    cases hst.active
    cases hst.reentered
    rfl
  rwa [heq]

end Grown

end State

namespace Effect

variable {α β : Type}

abbrev Builds (e : Effect α) (Q : α → State → Prop) (s : State) : Prop :=
  Ends e Q (fun fault t => s.Grown t ∧ fault.isOrdinary = true) s

theorem Builds.later {e : Effect α} {Q : α → State → Prop} (h : Builds e Q t) (hst : s.Grown t) :
    Ends e Q (fun fault u => s.Grown u ∧ fault.isOrdinary = true) t := by
  apply h.mono (fun _ _ => id)
  rintro fault u ⟨hgrown, hfault⟩
  exact ⟨hst.trans hgrown, hfault⟩

theorem Builds.next {e : Effect α} {f : α → Effect β} {Q : α → State → Prop}
    {R : β → State → Prop} (h : Builds e Q s) (hgrown : ∀ a t, Q a t → s.Grown t)
    (hnext : ∀ a t, Q a t → Builds (f a) R t) : Builds (e >>= f) R s := by
  apply Alike.next h
  intro a t ha
  exact (hnext a t ha).later (hgrown a t ha)

end Effect

namespace Unification

open Effect

structure Added (M : Moments) (loc : Location) (P : Graph → Json → Prop) (s : State) (r : Handle)
    (t : State) : Prop extends s.Grown t where
  has : t.graph.Has r
  covers : t.graph.Covers M (fun g value => t.Foresees loc g ∧ P g value) r

structure AddedAll (M : Moments) (loc : Location) (P : Graph → Json → Prop) (low high : Nat)
    (s : State) (rs : List Handle) (t : State) : Prop extends s.Grown t where
  ascends : Ascends t.graph.rank? low high rs
  covers g : t.graph.Evolves g → t.Foresees loc g → ∀ value, P g value →
    ∃ r ∈ rs, Accepts M g r value

def anyOf (M : Moments) (hs : List Handle) (g : Graph) (value : Json) : Prop :=
  ∃ h ∈ hs, Accepts M g h value

def Covering (M : Moments) (unify : Unify) : Prop :=
  ∀ hs hint loc s, s.graph.Sound → (∀ h ∈ hs, s.graph.Has h) →
    Builds (unify hs hint loc) (Added M loc (anyOf M hs) s) s

section

variable {M : Moments} {P Q : Graph → Json → Prop} {r : Handle} {rs rs' : List Handle}
  {low mid high : Nat}

theorem Added.mono (h : Added M loc P s r t)
    (hQ : ∀ g, t.graph.Evolves g → ∀ value, Q g value → P g value) : Added M loc Q s r t :=
  ⟨h.toGrown, h.has, h.covers.mono fun g hg value hvalue => ⟨hvalue.1, hQ g hg value hvalue.2⟩⟩

theorem Added.single {rank : Nat} (h : Added M loc P s r t) (hrank : t.graph.rank? r = some rank)
    (hlow : low ≤ rank) (hhigh : rank < high) : AddedAll M loc P low high s [r] t := by
  refine ⟨h.toGrown, .single hrank hlow hhigh, ?_⟩
  intro g hg hforesees value hvalue
  exact ⟨r, List.mem_singleton_self _, h.covers g hg value ⟨hforesees, hvalue⟩⟩

theorem AddedAll.nil (hs : s.graph.Sound) (hP : ∀ g value, ¬P g value) :
    AddedAll M loc P low high s [] s :=
  ⟨.refl hs, trivial, fun g _ _ value hvalue => absurd hvalue (hP g value)⟩

theorem AddedAll.append (h : AddedAll M loc P low mid s rs t)
    (h' : AddedAll M loc Q mid high t rs' u) (hlow : low ≤ mid) (hhigh : mid ≤ high) :
    AddedAll M loc (fun g value => P g value ∨ Q g value) low high s (rs ++ rs') u := by
  refine ⟨h.toGrown.trans h'.toGrown,
    (h.ascends.imp h'.evolves.rank?).append h'.ascends hlow hhigh, ?_⟩
  rintro g hg hforesees value (hvalue | hvalue)
  . obtain ⟨r, hr, haccepts⟩ :=
      h.covers g (h'.evolves.trans hg) (hforesees.earlier h'.suffix) value hvalue
    exact ⟨r, List.mem_append_left _ hr, haccepts⟩
  . obtain ⟨r, hr, haccepts⟩ := h'.covers g hg hforesees value hvalue
    exact ⟨r, List.mem_append_right _ hr, haccepts⟩

theorem AddedAll.mono (h : AddedAll M loc P low high s rs t)
    (hQ : ∀ g, t.graph.Evolves g → ∀ value, Q g value → P g value) :
    AddedAll M loc Q low high s rs t :=
  ⟨h.toGrown, h.ascends,
    fun g hg hforesees value hvalue => h.covers g hg hforesees value (hQ g hg value hvalue)⟩

theorem builds_build {rank : Option Nat} {make : Graph → Handle × Graph} (loc : Location)
    (h : s.graph.Adds M rank P (make s.graph)) :
    Builds (build make) (fun r t => Added M loc P s r t ∧ t.graph.rank? r = rank ∧
      make s.graph = (r, t.graph)) s := by
  apply alike_build
  exact ⟨⟨.build h.toBuilt, h.has, h.covers.mono fun _ _ _ hvalue => hvalue.2⟩, h.rank, rfl⟩

end

end Unification

end SchemaGraph
