import Mathlib.Logic.Relation
import SchemaGraph.Proofs.Descent.EndlessCycles
import SchemaGraph.Proofs.Graph.Reachability
import SchemaGraph.Proofs.Session.Upheld

/-!
This module contains where the open types come from that a session gives away. A conversion that
fails leaves the records and maps open that it has begun, and they stay recorded for their places.
The result of a later conversion leads to one of them only if that conversion comes to a place whose
recorded type does so already.
-/

namespace SchemaGraph

def Graph.Clear (g : Graph) (T : Handle → Prop) (h : Handle) : Prop :=
  ∀ k, g.Reaches h k → g.Pending k → T k

/--
What is true of the states of a conversion that begins in `s` and asks for places with `A` only: the
types of these places and the types inside new nodes are clear.
-/
structure State.Sifted (s : State) (A : Place → Prop) (T : Handle → Prop) (opened : List Handle)
    (t : State) : Prop where
  document : t.document = s.document
  graph : s.graph.Grows t.graph
  tabled : t.graph.Tabled
  fresh : ∀ h ∈ opened, ¬s.graph.Has h
  inside {h shape} : ¬s.graph.Has h → t.graph.shape? h = some shape →
    ∀ child ∈ shape.children, s.graph.Clear T child
  memo {place h} : A place → t.memo.get? place.loc = some h → s.graph.Clear T h

theorem Key.mem_children_of_same {a b : Key} (hsame : a.same b = true) (child : Handle) :
    child ∈ a.shape.children ↔ child ∈ b.shape.children := by
  cases a <;> cases b <;> simp_all [Key.same, Key.shape, Shape.children, Slot.content?,
    sameElements_iff]

section

variable {s t : State} {A : Place → Prop} {T : Handle → Prop} {opened : List Handle} {g : Graph}
  {h : Handle} {shape : Shape}

theorem Graph.Clear.child (hh : g.Clear T h) (hshape : g.shape? h = some shape) :
    ∀ child ∈ shape.children, g.Clear T child :=
  fun _ hchild k hreaches => hh k (.head ((refers_iff hshape).2 hchild) hreaches)

theorem Graph.clear_of_shape (hshape : g.shape? h = some shape) (hclosed : shape.isOpen = false)
    (hchildren : ∀ child ∈ shape.children, g.Clear T child) : g.Clear T h := by
  intro k hreaches hpending
  rcases Relation.ReflTransGen.cases_head hreaches with rfl | ⟨child, hchild, hreaches⟩
  . obtain ⟨shape', hshape', hopen⟩ := hpending
    rw [hshape] at hshape'
    cases hshape'
    rw [hclosed] at hopen
    cases hopen
  . exact hchildren child ((refers_iff hshape).1 hchild) k hreaches hpending

theorem Graph.clear_of_not_has (hnew : ¬g.Has h) : g.Clear T h := by
  intro k hreaches hpending
  rcases Relation.ReflTransGen.cases_head hreaches with rfl | ⟨child, hchild, -⟩
  . exact absurd hpending.has hnew
  . unfold Refers at hchild
    rw [children_of_not_has hnew] at hchild
    cases hchild

namespace State.Sifted

theorem congr (ht : s.Sifted A T opened t) {u : State} (hdocument : u.document = t.document)
    (hgraph : u.graph = t.graph)
    (hmemo : ∀ place h, A place → u.memo.get? place.loc = some h → s.graph.Clear T h) :
    s.Sifted A T opened u := by
  refine ⟨hdocument.trans ht.document, ?_, ?_, ht.fresh, ?_, fun hplace => hmemo _ _ hplace⟩
  . rw [hgraph]
    exact ht.graph
  . rw [hgraph]
    exact ht.tabled
  . rw [hgraph]
    exact ht.inside

theorem note (ht : s.Sifted A T opened t) (event : Event) :
    s.Sifted A T opened { t with journal := event :: t.journal } :=
  ht.congr rfl rfl fun _ _ hplace => ht.memo hplace

theorem recorded (ht : s.Sifted A T opened t) (loc : Location) (hh : s.graph.Clear T h) :
    s.Sifted A T opened (t.recorded loc h) := by
  refine ht.congr (u := t.recorded loc h) rfl rfl ?_
  intro place k hplace hget
  rw [State.get?_recorded] at hget
  split at hget
  . cases hget
    exact hh
  . exact ht.memo hplace hget

theorem begun (ht : s.Sifted A T opened t) (place : Place) :
    s.Sifted A T opened (t.begun place) := by
  apply ht.congr (t.begun_document place) (t.begun_graph place)
  rw [t.begun_memo]
  exact fun _ _ hplace => ht.memo hplace

theorem ended (ht : s.Sifted A T opened t) (loc : Location) (again : Prop) [Decidable again] :
    s.Sifted A T opened (t.ended loc again) := by
  apply ht.congr (t.ended_document loc again) (t.ended_graph loc again)
  rw [t.ended_memo]
  exact fun _ _ hplace => ht.memo hplace

theorem add (ht : s.Sifted A T opened t) (hkeeps : t.graph.Keeps g) (htabled : g.Tabled)
    (hfresh : ∀ k, g.Has k → t.graph.Has k ∨ k = h)
    (hinside : ∀ shape, g.shape? h = some shape → ∀ child ∈ shape.children, s.graph.Clear T child) :
    s.Sifted A T opened { t with graph := g } := by
  refine ⟨ht.document, ht.graph.trans hkeeps.grows, htabled, ht.fresh, ?_, ht.memo⟩
  intro k shape hnew hshape
  rcases hfresh k (Graph.has_of_shape? hshape) with hhas | rfl
  . apply ht.inside hnew
    rw [← hkeeps.grows.shape?_eq hhas]
    exact hshape
  . exact hinside shape hshape

theorem share (ht : s.Sifted A T opened t) {key : Key} {hint : Option NameHint}
    (hkey : ∀ child ∈ key.shape.children, s.graph.Clear T child)
    (hhint : hint.isSome = key.isNamed) :
    s.graph.Clear T (t.graph.share key key.shape hint).1 ∧
      s.Sifted A T opened { t with graph := (t.graph.share key key.shape hint).2 } := by
  obtain ⟨key', hsame, hshares⟩ := Graph.shares_share ht.tabled hhint
  have hkey' : ∀ child ∈ key'.shape.children, s.graph.Clear T child :=
    fun child hchild => hkey child ((Key.mem_children_of_same hsame child).1 hchild)
  constructor
  . by_cases hold : s.graph.Has (t.graph.share key key.shape hint).1
    . apply Graph.clear_of_shape _ key'.isOpen_shape hkey'
      rw [← (ht.graph.trans hshares.keeps.grows).shape?_eq hold]
      exact hshares.shape
    . exact Graph.clear_of_not_has hold
  . apply ht.add hshares.keeps hshares.tabled hshares.fresh
    intro shape hshape
    rw [hshares.shape] at hshape
    cases hshape
    exact hkey'

theorem push (ht : s.Sifted A T opened t) {node : Node}
    (hnode : ∀ child ∈ node.shape.children, s.graph.Clear T child) :
    s.graph.Clear T (t.graph.push node).1 ∧
      s.Sifted A T ((t.graph.push node).1 :: opened)
        { t with graph := (t.graph.push node).2 } := by
  have hnew : ¬s.graph.Has (t.graph.push node).1 :=
    fun hhas => Graph.not_has_push t.graph node (ht.graph.has _ hhas)
  have hadd : s.Sifted A T opened { t with graph := (t.graph.push node).2 } := by
    apply ht.add (Graph.keeps_push t.graph node) (Graph.tabled_push ht.tabled node)
      (Graph.fresh_push t.graph node)
    intro shape hshape
    cases (Graph.shape?_push_self _ _).symm.trans hshape
    exact hnode
  exact ⟨Graph.clear_of_not_has hnew, hadd.document, hadd.graph, hadd.tabled,
    List.forall_mem_cons.2 ⟨hnew, ht.fresh⟩, hadd.inside, hadd.memo⟩

theorem setShape (ht : s.Sifted A T (h :: opened) t) (hpending : t.graph.Pending h)
    (hchildren : ∀ child ∈ shape.children, s.graph.Clear T child) :
    s.Sifted A T opened { t with graph := t.graph.setShape h shape } := by
  obtain ⟨hnew, hfresh⟩ := List.forall_mem_cons.1 ht.fresh
  refine ⟨ht.document, ?_, ht.tabled.setShape hpending, hfresh, ?_, ht.memo⟩
  . intro k old hold
    dsimp only
    rw [Graph.shape?_setShape _ _ _ _ hpending.has, if_neg]
    . exact ht.graph k old hold
    . rintro rfl
      exact hnew (Graph.has_of_shape? hold)
  . intro k shape' hk hshape
    dsimp only at hshape
    rw [Graph.shape?_setShape _ _ _ _ hpending.has] at hshape
    split at hshape
    . cases hshape
      exact hchildren
    . exact ht.inside hk hshape

theorem children (ht : s.Sifted A T opened t) (hh : s.graph.Clear T h)
    (hshape : t.graph.shape? h = some shape) :
    ∀ child ∈ shape.children, s.graph.Clear T child := by
  by_cases hold : s.graph.Has h
  . apply hh.child
    rw [← ht.graph.shape?_eq hold]
    exact hshape
  . exact ht.inside hold hshape

theorem clear_of_reaches (ht : s.Sifted A T opened t) {root : Handle}
    (hroot : s.graph.Clear T root) (hreaches : t.graph.Reaches root h) : s.graph.Clear T h := by
  induction hreaches with
  | refl => exact hroot
  | tail _ hchild ih =>
    unfold Graph.Refers Graph.children at hchild
    split at hchild
    . cases hchild
    . next hshape => exact ht.children ih hshape _ hchild

end State.Sifted

end

namespace Descent

open Effect

variable {s t : State} {A : Place → Prop} {T : Handle → Prop}

theorem upkeep_unifying_sifted (s : State) (A : Place → Prop) (T : Handle → Prop)
    (opened : List Handle) :
    Unification.Upkeep (s.graph.Clear T) (s.Sifted A T opened) (fun _ _ => True) where
  children ht hh hshape := ht.children hh hshape
  share ht hkey hhint := ht.share hkey hhint
  record := by
    intro t fields hint ht hfields
    have hchildren : ∀ child ∈ (Node.mk (.record (.filled fields)) (some hint)).shape.children,
        s.graph.Clear T child := by
      intro child hchild
      obtain ⟨field, hfield, rfl⟩ := List.mem_map.1 hchild
      exact hfields field hfield
    obtain ⟨hclear, hpush⟩ := ht.push hchildren
    exact ⟨hclear, hpush.document, hpush.graph, hpush.tabled, ht.fresh, hpush.inside, hpush.memo⟩
  merged ht := ht.note _
  joined ht _ := ht.note _
  clash _ _ := trivial

theorem upkeep_sifted (s : State) (loc : Location) (A : Place → Prop) (T : Handle → Prop) :
    Upkeep s.document loc (s.graph.Clear T) (s.Sifted A T) (fun _ _ => True) where
  closed opened := upkeep_unifying_sifted s A T opened
  document ht := ht.document
  push := by
    intro opened t node hopen ht
    have hnone : node.shape.children = [] := by
      cases hshape : node.shape with
      | record fields =>
        cases fields with
        | pending => rfl
        | filled fields =>
          rw [hshape] at hopen
          cases hopen
      | map values =>
        cases values with
        | pending => rfl
        | filled values =>
          rw [hshape] at hopen
          cases hopen
      | _ =>
        rw [hshape] at hopen
        cases hopen
    have hnode : ∀ child ∈ node.shape.children, s.graph.Clear T child := by
      rw [hnone]
      exact fun _ hmem => nomatch hmem
    obtain ⟨hclear, hpush⟩ := ht.push hnode
    exact ⟨hclear, hpush.recorded loc hclear⟩
  filled ht hfills _ hchildren := ht.setShape hfills.pending hchildren
  fault _ := trivial

theorem sifted_convertWithin (hA : ∀ p q, A p → Asks s.document p q → A q) (depth : Nat)
    (place : Place) (hint : NameHint) (opened : List Handle) (hplace : A place)
    (ht : s.Sifted A T opened t) :
    Returns (convertWithin depth place.node place.loc hint)
      (fun h u => s.graph.Clear T h ∧ s.Sifted A T opened u) t := by
  induction depth generalizing place hint opened t with
  | zero => exact alike_fail trivial
  | succ depth ih =>
    rw [convertWithin_succ, intoSchema_eq_schemaWith]
    apply alike_visit
    . exact fun h hknown => ⟨ht.memo hplace hknown, ht.note _⟩
    . exact fun _ _ _ => trivial
    . intro _ _
      have htends : Tends (place.edges s.document) (s.graph.Clear T) (s.Sifted A T)
          (fun _ _ => True) (convertWithin depth) (convertWithin depth) :=
        fun edge hedge hint opened t ht =>
          ih edge.target hint opened (hA place edge.target hplace ⟨edge, hedge, rfl⟩) ht
      apply ((upkeep_sifted s place.loc A T).alike_schemaWith
        (fun opened => (upkeep_unifying_sifted s A T opened).upholds_unify fun _ _ _ => trivial) hint
        htends
        (ht.begun place)).mono
      . exact fun h u hu => ⟨hu.1, (hu.2.ended _ _).recorded _ hu.1⟩
      . exact fun _ _ => id

theorem sifted_convert (hA : ∀ p q, A p → Asks s.document p q → A q) (place : Place)
    (hint : NameHint) {opened : List Handle} (hplace : A place) (ht : s.Sifted A T opened t) :
    Returns (convert place.node place.loc hint)
      (fun h u => s.graph.Clear T h ∧ s.Sifted A T opened u) t := by
  unfold convert
  apply alike_state_bind
  exact sifted_convertWithin hA _ place hint opened hplace ht

end Descent

def SessionStep.FailsToConvert (s : State) (step : SessionStep) : Prop :=
  ∃ node loc hint fault, step = .convert node loc hint ∧ (step.effect.run s).1 = .error fault

theorem SessionStep.failsToConvert_of_pending {s : State} (hs : s.graph.Tabled)
    {step : SessionStep} {k : Handle} (hpending : (step.effect.run s).2.graph.Pending k)
    (hnew : ¬s.graph.Has k) : step.FailsToConvert s := by
  have hclosed : ¬s.Upheld [] (step.effect.run s).2 := by
    intro hupheld
    rcases hupheld.pending k hpending with hhas | hmem
    . exact hnew hhas
    . cases hmem
  cases step with
  | convert node loc hint =>
    rcases hrun : (SessionStep.convert node loc hint).effect.run s with ⟨fault | h, t⟩
    . exact ⟨node, loc, hint, fault, rfl, by rw [hrun]⟩
    . have hdone := (Descent.spares_convert ⟨node, loc⟩ hint s hs).ok hrun
      rw [hrun] at hclosed
      exact absurd hdone.1 hclosed
  | unify types hint loc =>
    have hends := Unification.spares_unify types hint loc s hs
    exact absurd (hends.final (fun _ _ h => h.1) (fun _ _ h => h.1)) hclosed
  | nullable type hint =>
    exact absurd ((Unification.upkeep_unifying s).addNullable hint trivial ⟨.refl hs, rfl⟩).2.1
      hclosed

namespace State

theorem pending_after {s : State} (hs : s.graph.Tabled) (steps : List SessionStep) {k : Handle}
    (hpending : (s.after steps).graph.Pending k) :
    s.graph.Pending k ∨ ∃ before step later, steps = before ++ step :: later ∧
      step.FailsToConvert (s.after before) ∧ ¬(s.after before).graph.Has k ∧
      (s.after (before ++ [step])).graph.Pending k := by
  induction steps generalizing s with
  | nil => exact Or.inl hpending
  | cons step rest ih =>
    obtain ⟨opened, hstep⟩ := step.upheld hs
    rcases ih hstep.tabled hpending with hnext | ⟨before, step', later, rfl, hfails, hnew, hopen⟩
    . by_cases hhas : s.graph.Has k
      . exact Or.inl (hstep.graph.pending hhas hnext)
      . have hfails := step.failsToConvert_of_pending hs hnext hhas
        exact Or.inr ⟨[], step, rest, rfl, hfails, hhas, hnext⟩
    . exact Or.inr ⟨step :: before, step', later, rfl, hfails, hnew, hopen⟩

end State

namespace Conversion

open Descent

theorem open_of_ok (document : Json) (steps : List SessionStep) (node : Json) (loc : Location)
    (hint : NameHint) {root : Handle} {t : State}
    (hrun : (convert node loc hint).run ((State.start document).after steps) = (.ok root, t))
    {k : Handle} (hreaches : t.graph.Reaches root k) (hpending : t.graph.Pending k) :
    (∃ place h, Relation.ReflTransGen (Asks document) ⟨node, loc⟩ place ∧
      ((State.start document).after steps).memo.get? place.loc = some h ∧
      ((State.start document).after steps).graph.Reaches h k) ∧
    ∃ before step later, steps = before ++ step :: later ∧
      step.FailsToConvert ((State.start document).after before) ∧
      ¬((State.start document).after before).graph.Has k ∧
      ((State.start document).after (before ++ [step])).graph.Pending k := by
  obtain ⟨opened, hbefore⟩ := State.upheld_after steps (s := .start document) Graph.tabled_empty
  generalize hs : (State.start document).after steps = s at hrun hbefore ⊢
  obtain ⟨hupheld, -⟩ := (spares_convert ⟨node, loc⟩ hint s hbefore.tabled).ok hrun
  -- The node was there, and open, when the conversion began.
  have hold : s.graph.Pending k := by
    rcases hupheld.pending k hpending with hhas | hmem
    . exact hupheld.graph.pending hhas hpending
    . cases hmem
  constructor
  . have hdocument : s.document = document := hbefore.document
    let A : Place → Prop := Relation.ReflTransGen (Asks document) ⟨node, loc⟩
    let T : Handle → Prop := fun k =>
      ∃ place h, A place ∧ s.memo.get? place.loc = some h ∧ s.graph.Reaches h k
    have hA : ∀ p q, A p → Asks s.document p q → A q := by
      intro p q hp hpq
      rw [hdocument] at hpq
      exact hp.tail hpq
    have hstart : s.Sifted A T [] s := by
      refine ⟨rfl, .refl _, hbefore.tabled, fun _ hmem => (nomatch hmem), ?_, ?_⟩
      . exact fun hnew hshape => absurd (Graph.has_of_shape? hshape) hnew
      . exact fun {place h} hplace hget k hreaches _ => ⟨place, h, hplace, hget, hreaches⟩
    obtain ⟨hroot, ht⟩ := (sifted_convert hA ⟨node, loc⟩ hint .refl hstart).ok hrun
    exact ht.clear_of_reaches hroot hreaches k .refl hold
  . rw [← hs] at hold
    rcases State.pending_after Graph.tabled_empty steps hold with hstart | hfailed
    . exact absurd hstart.has (Nat.not_lt_zero _)
    . exact hfailed

/--
A record with a field of a type that there is not. Its conversion fails, but a second attempt gives
the record that the first one has left open.
-/
def unfinishedDocument : Json :=
  .object [
    ("type", .string "object"),
    ("properties", .object [("a", .object [("type", .string "decimal")])])]

def unfinishedSession : List SessionStep :=
  [.convert unfinishedDocument .root (.inferred "Root")]

theorem run_unfinished :
    let s := (State.start unfinishedDocument).after unfinishedSession
    let t := ((convert unfinishedDocument .root (.inferred "Root")).run s).2
    (convert unfinishedDocument .root (.inferred "Root")).run s = (.ok ⟨0⟩, t) ∧
      t.graph.Pending ⟨0⟩ := by
  intro s t
  have hok : ((convert unfinishedDocument .root (.inferred "Root")).run s).1 = .ok ⟨0⟩ := by
    decide +kernel
  have hshape : t.graph.shape? ⟨0⟩ = some (.record .pending) := by decide +kernel
  exact ⟨Prod.ext hok rfl, _, hshape, rfl⟩

theorem open_of_ok_unfinished :
    let s := (State.start unfinishedDocument).after unfinishedSession
    ∃ place h, Relation.ReflTransGen (Asks unfinishedDocument) ⟨unfinishedDocument, .root⟩ place ∧
      s.memo.get? place.loc = some h ∧ s.graph.Reaches h ⟨0⟩ := by
  obtain ⟨hrun, hpending⟩ := run_unfinished
  exact (open_of_ok unfinishedDocument unfinishedSession unfinishedDocument .root (.inferred "Root")
    hrun .refl hpending).1

theorem unfinished_given_away :
    ¬∀ document steps node loc hint root t,
      (convert node loc hint).run ((State.start document).after steps) = (.ok root, t) →
        ∀ k, t.graph.Reaches root k → ¬t.graph.Pending k := by
  intro hcomplete
  obtain ⟨hrun, hpending⟩ := run_unfinished
  exact hcomplete _ _ _ _ _ _ _ hrun _ .refl hpending

end Conversion

end SchemaGraph
