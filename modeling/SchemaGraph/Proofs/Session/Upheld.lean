import SchemaGraph.Conversion.Session
import SchemaGraph.Proofs.Descent.Contract
import SchemaGraph.Proofs.Descent.Upkeep

/-!
This module contains what every conversion and every unification leaves as it was, whether it ends
with a type or with a fault. It asks nothing of the state that they begin in, except that the table
of shared nodes is right, and nothing at all of the handles, schemas and locations in it.
-/

namespace SchemaGraph

structure State.Upheld (base : State) (opened : List Handle) (s : State) : Prop
    extends Frame base s where
  keeps : base.graph.Keeps s.graph
  tabled : s.graph.Tabled
  pending h : s.graph.Pending h → base.graph.Has h ∨ h ∈ opened
  fresh : ∀ h ∈ opened, ¬base.graph.Has h

namespace State.Upheld

variable {base s t : State} {opened opened' : List Handle} {g : Graph} {h : Handle}

theorem refl (hs : s.graph.Tabled) : s.Upheld [] s :=
  ⟨.refl s, .refl _, hs, fun _ hpending => Or.inl hpending.has, fun _ hmem => nomatch hmem⟩

theorem trans (hs : base.Upheld opened s) (ht : s.Upheld opened' t) :
    base.Upheld (opened' ++ opened) t := by
  refine ⟨hs.toFrame.trans ht.toFrame, hs.keeps.trans ht.keeps, ht.tabled, ?_, ?_⟩
  . intro h hpending
    rcases ht.pending h hpending with hhas | hmem
    . exact (hs.pending h (ht.graph.pending hhas hpending)).imp_right (List.mem_append_right _)
    . exact Or.inr (List.mem_append_left _ hmem)
  . intro h hmem hhas
    rcases List.mem_append.1 hmem with hmem | hmem
    . exact ht.fresh h hmem (hs.graph.has h hhas)
    . exact hs.fresh h hmem hhas

theorem congr (hs : base.Upheld opened s) (hframe : Frame base t) (hgraph : t.graph = s.graph) :
    base.Upheld opened t := by
  refine ⟨hframe, ?_, ?_, ?_, hs.fresh⟩
  . rw [hgraph]
    exact hs.keeps
  . rw [hgraph]
    exact hs.tabled
  . rw [hgraph]
    exact hs.pending

theorem note (hs : base.Upheld opened s) (event : Event) :
    base.Upheld opened { s with journal := event :: s.journal } :=
  hs.congr ⟨hs.document, hs.active, hs.reentered, hs.memo, hs.graph,
    hs.journal.trans (List.suffix_cons _ _)⟩ rfl

theorem add (hs : base.Upheld opened s) (hkeeps : s.graph.Keeps g) (htabled : g.Tabled)
    (hfresh : ∀ k, g.Has k → s.graph.Has k ∨ k = h) (hclosed : ¬g.Pending h) :
    base.Upheld opened { s with graph := g } := by
  have hframe : Frame base { s with graph := g } :=
    hs.toFrame.grow (hs.graph.trans hkeeps.grows)
  refine ⟨hframe, hs.keeps.trans hkeeps, htabled, ?_, hs.fresh⟩
  intro k hpending
  rcases hfresh k hpending.has with hhas | rfl
  . exact hs.pending k (hkeeps.grows.pending hhas hpending)
  . exact absurd hpending hclosed

theorem share (hs : base.Upheld opened s) {key : Key} {hint : Option NameHint}
    (hhint : hint.isSome = key.isNamed) :
    base.Upheld opened { s with graph := (s.graph.share key key.shape hint).2 } := by
  obtain ⟨key', -, hshares⟩ := Graph.shares_share hs.tabled hhint
  apply hs.add hshares.keeps hshares.tabled hshares.fresh
  rintro ⟨shape, hshape, hopen⟩
  rw [hshares.shape] at hshape
  cases hshape
  rw [key'.isOpen_shape] at hopen
  cases hopen

theorem push (hs : base.Upheld opened s) (node : Node) :
    base.Upheld ((s.graph.push node).1 :: opened) { s with graph := (s.graph.push node).2 } := by
  have hkeeps := Graph.keeps_push s.graph node
  have hframe : Frame base { s with graph := (s.graph.push node).2 } :=
    hs.toFrame.grow (hs.graph.trans hkeeps.grows)
  refine ⟨hframe, hs.keeps.trans hkeeps, Graph.tabled_push hs.tabled node, ?_, ?_⟩
  . intro k hpending
    rcases Graph.fresh_push s.graph node k hpending.has with hhas | rfl
    . have hold := hs.pending k (hkeeps.grows.pending hhas hpending)
      exact hold.imp_right (List.mem_cons_of_mem _)
    . exact Or.inr (List.mem_cons_self ..)
  . intro k hmem hhas
    rcases List.mem_cons.1 hmem with rfl | hmem
    . exact Graph.not_has_push s.graph node (hs.graph.has _ hhas)
    . exact hs.fresh k hmem hhas

theorem record (hs : base.Upheld opened s) (hint : NameHint) (fields : Fields) :
    base.Upheld opened { s with graph := (s.graph.addRecord hint (.filled fields)).2 } := by
  apply hs.add (Graph.keeps_push s.graph _) (Graph.tabled_push hs.tabled _)
    (Graph.fresh_push s.graph _)
  rintro ⟨shape, hshape, hopen⟩
  cases (Graph.shape?_push_self _ _).symm.trans hshape
  cases hopen

theorem setShape {shape : Shape} (hs : base.Upheld (h :: opened) s)
    (hpending : s.graph.Pending h) (hclosed : shape.isOpen = false) :
    base.Upheld opened { s with graph := s.graph.setShape h shape } := by
  have hnew : ¬base.graph.Has h := hs.fresh h (List.mem_cons_self ..)
  have hkeeps : base.graph.Keeps (s.graph.setShape h shape) := hs.keeps.setShape hnew
  refine ⟨hs.toFrame.grow hkeeps.grows, hkeeps, hs.tabled.setShape hpending, ?_,
    fun k hk => hs.fresh k (List.mem_cons_of_mem _ hk)⟩
  rintro k ⟨old, hold, hopen⟩
  dsimp only at hold
  rw [Graph.shape?_setShape _ _ _ _ hpending.has] at hold
  split at hold
  . cases hold
    rw [hclosed] at hopen
    cases hopen
  . next hne =>
    rcases hs.pending k ⟨old, hold, hopen⟩ with hhas | hmem
    . exact Or.inl hhas
    . exact Or.inr ((List.mem_cons.1 hmem).resolve_left hne)

theorem asked (hs : s.graph.Tabled) (place : Place) : s.Upheld [] (s.asked place) :=
  (refl hs).note _

theorem ended {place : Place} (hs : (base.begun place).Upheld opened s) :
    base.Upheld opened (s.ended place.loc (place.loc ∈ base.active)) := by
  obtain ⟨hframe, hkeeps, htabled, hpending, hfresh⟩ := hs
  rw [base.begun_graph place] at hkeeps hpending hfresh
  refine ⟨hframe.ended, ?_, ?_, ?_, hfresh⟩
  . rwa [s.ended_graph]
  . rwa [s.ended_graph]
  . rwa [s.ended_graph]

theorem recorded (hs : base.Upheld opened s) {loc : Location} (hunknown : ¬base.Knows loc)
    (h : Handle) : base.Upheld opened (s.recorded loc h) :=
  hs.congr (hs.toFrame.recorded hunknown h) rfl

end State.Upheld

namespace Unification

open Effect

theorem upkeep_upheld (base : State) (opened : List Handle) :
    Upkeep (fun _ => True) (fun s => base.Upheld opened s)
      (fun _ s => ∃ opened, base.Upheld opened s) where
  children _ _ _ _ _ := trivial
  share hs _ hhint := ⟨trivial, hs.share hhint⟩
  record hint hs _ := ⟨trivial, hs.record hint _⟩
  merged hs := hs.note _
  joined hs _ := hs.note _
  clash hs _ := ⟨opened, hs⟩

theorem upkeep_unifying (base : State) :
    Upkeep (fun _ => True) (fun s => base.Upheld [] s ∧ s.memo = base.memo)
      (fun _ s => base.Upheld [] s ∧ s.memo = base.memo) where
  children _ _ _ _ _ := trivial
  share hs _ hhint := ⟨trivial, hs.1.share hhint, hs.2⟩
  record hint hs _ := ⟨trivial, hs.1.record hint _, hs.2⟩
  merged hs := ⟨hs.1.note _, hs.2⟩
  joined hs _ := ⟨hs.1.note _, hs.2⟩
  clash hs _ := hs

def Spares (unify unify' : Unify) : Prop :=
  ∀ types hint loc s, s.graph.Tabled →
    Alike (unify types hint loc) (unify' types hint loc)
      (fun _ t => s.Upheld [] t ∧ t.memo = s.memo)
      (fun _ t => s.Upheld [] t ∧ t.memo = s.memo) s

variable {unify unify' : Unify}

theorem Spares.upholds (h : Spares unify unify') (base : State) (opened : List Handle) :
    Upholds (fun _ => True) (fun s => base.Upheld opened s)
      (fun _ s => ∃ opened, base.Upheld opened s) unify unify' := by
  intro types hint loc s _ hs
  apply (h types hint loc s hs.tabled).mono
  . exact fun _ t ht => ⟨trivial, hs.trans ht.1⟩
  . exact fun _ t ht => ⟨_, hs.trans ht.1⟩

theorem spares_unifyWithin (depth : Nat) : Spares (unifyWithin depth) (unifyWithin depth) := by
  intro types hint loc s hs
  apply ((upkeep_unifying s).upholds_unifyWithin (fun _ _ => id) depth types hint loc s
    (fun _ _ => trivial) ⟨.refl hs, rfl⟩).mono
  . exact fun _ _ h => h.2
  . exact fun _ _ => id

theorem spares_unify : Spares Unification.unify Unification.unify := by
  intro types hint loc s hs
  unfold Unification.unify
  apply alike_state_bind
  exact spares_unifyWithin _ types hint loc s hs

theorem Spares.combine (h : Spares unify unify') (types : List Handle) (hint : NameHint)
    (loc : Location) {s : State} (hs : s.graph.Tabled) :
    Alike (combine unify (s.graph.leaves types) hint loc)
      (combine unify' (s.graph.leaves types) hint loc)
      (fun _ t => s.Upheld [] t ∧ t.memo = s.memo)
      (fun _ t => s.Upheld [] t ∧ t.memo = s.memo) s := by
  have hupholds : Upholds (fun _ => True) (fun t => s.Upheld [] t ∧ t.memo = s.memo)
      (fun _ t => s.Upheld [] t ∧ t.memo = s.memo) unify unify' := by
    rintro types hint loc t - ⟨ht, hmemo⟩
    apply (h types hint loc t ht.tabled).mono
    . exact fun _ u hu => ⟨trivial, ht.trans hu.1, hu.2.trans hmemo⟩
    . exact fun _ u hu => ⟨ht.trans hu.1, hu.2.trans hmemo⟩
  have htypes : ∀ h ∈ types, True := fun _ _ => trivial
  apply ((upkeep_unifying s).alike_combine hupholds htypes hint loc ⟨.refl hs, rfl⟩).mono
  . exact fun _ _ h => h.2
  . exact fun _ _ => id

end Unification

namespace Descent

open Effect
open Unification (Unify)

def Spares (convert convert' : Convert) : Prop :=
  ∀ (place : Place) hint s, s.graph.Tabled →
    Alike (convert place.node place.loc hint) (convert' place.node place.loc hint)
      (fun h t => s.Upheld [] t ∧ t.memo.get? place.loc = some h)
      (fun _ t => ∃ opened, s.Upheld opened t) s

variable {convert convert' : Convert} {unify unify' : Unify}

theorem upkeep_upheld {base : State} {loc : Location} (hunknown : ¬base.Knows loc) :
    Upkeep base.document loc (fun _ => True) (fun opened s => base.Upheld opened s)
      (fun _ s => ∃ opened, base.Upheld opened s) where
  closed opened := Unification.upkeep_upheld base opened
  document hs := hs.document
  push _ hs := ⟨trivial, (hs.push _).recorded hunknown _⟩
  filled hs hfills hclosed _ := hs.setShape hfills.pending hclosed
  fault hs := ⟨_, hs⟩

theorem Spares.tends (h : Spares convert convert') (base : State) (edges : List Edge) :
    Tends edges (fun _ => True) (fun opened s => base.Upheld opened s)
      (fun _ s => ∃ opened, base.Upheld opened s) convert convert' := by
  intro edge _ hint opened s hs
  apply (h edge.target hint s hs.tabled).mono
  . exact fun _ t ht => ⟨trivial, hs.trans ht.1⟩
  . rintro _ t ⟨opened', ht⟩
    exact ⟨_, hs.trans ht⟩

theorem Spares.visit (h : Spares convert convert') (hunify : Unification.Spares unify unify')
    (place : Place) (hint : NameHint) {s : State} (hs : s.graph.Tabled) :
    Alike (visit place (schemaWith convert unify place hint))
      (visit place (schemaWith convert' unify' place hint))
      (fun h t => s.Upheld [] t ∧ t.memo.get? place.loc = some h)
      (fun _ t => ∃ opened, s.Upheld opened t) s := by
  apply alike_visit
  . exact fun h hknown => ⟨.asked hs place, hknown⟩
  . exact fun _ _ _ => ⟨[], .asked hs place⟩
  . intro hunknown _
    have hunknown' : ¬(s.begun place).Knows place.loc := by
      rwa [State.knows_begun]
    have hbegun : (s.begun place).Upheld [] (s.begun place) := by
      apply State.Upheld.refl
      rwa [s.begun_graph]
    apply ((upkeep_upheld hunknown').alike_schemaWith (hunify.upholds _) hint
      (h.tends _ _) hbegun).mono
    . rintro h t ⟨-, ht⟩
      refine ⟨ht.ended.recorded hunknown h, ?_⟩
      rw [State.get?_recorded, if_pos rfl]
    . rintro _ t ⟨opened, ht⟩
      exact ⟨opened, ht.ended⟩

theorem spares_convertWithin (depth : Nat) :
    Spares (convertWithin depth) (convertWithin depth) := by
  induction depth with
  | zero => exact fun place hint s hs => ⟨rfl, [], .refl hs⟩
  | succ depth ih =>
    intro place hint s hs
    rw [convertWithin_succ, intoSchema_eq_schemaWith]
    exact ih.visit Unification.spares_unify place hint hs

theorem run_convert_known {node : Json} {loc : Location} {s : State} {h : Handle} (hint : NameHint)
    (hknown : s.memo.get? loc = some h) :
    (Descent.convert node loc hint).run s = (.ok h, s.asked ⟨node, loc⟩) := by
  unfold Descent.convert
  rw [run_bind, run_state]
  exact @run_visit_known ⟨node, loc⟩ s h _ hknown

theorem spares_convert : Spares Descent.convert Descent.convert := by
  intro place hint s hs
  unfold Descent.convert
  apply alike_state_bind
  exact spares_convertWithin _ place hint s hs

end Descent

theorem SessionStep.upheld {s : State} (step : SessionStep) (hs : s.graph.Tabled) :
    ∃ opened, s.Upheld opened (step.effect.run s).2 := by
  cases step with
  | convert node loc hint =>
    exact (Descent.spares_convert ⟨node, loc⟩ hint s hs).final (fun _ _ h => ⟨[], h.1⟩)
      (fun _ _ h => h)
  | unify types hint loc =>
    have hends := Unification.spares_unify types hint loc s hs
    exact ⟨[], hends.final (P := s.Upheld []) (fun _ _ h => h.1) (fun _ _ h => h.1)⟩
  | nullable type hint =>
    exact ⟨[], ((Unification.upkeep_unifying s).addNullable hint trivial ⟨.refl hs, rfl⟩).2.1⟩

theorem State.upheld_after {s : State} (steps : List SessionStep) (hs : s.graph.Tabled) :
    ∃ opened, s.Upheld opened (s.after steps) := by
  induction steps generalizing s with
  | nil => exact ⟨[], .refl hs⟩
  | cons step rest ih =>
    obtain ⟨opened, hstep⟩ := step.upheld hs
    obtain ⟨opened', hrest⟩ := ih hstep.tabled
    exact ⟨_, hstep.trans hrest⟩

theorem State.tabled_after (document : Json) (steps : List SessionStep) :
    ((State.start document).after steps).graph.Tabled := by
  obtain ⟨opened, hupheld⟩ := State.upheld_after steps (s := .start document) Graph.tabled_empty
  exact hupheld.tabled

end SchemaGraph
