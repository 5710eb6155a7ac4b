import SchemaGraph.Conversion
import SchemaGraph.Proofs.Descent.Flow
import SchemaGraph.Proofs.Document.Addresses

/-!
This module contains the way in which a property of the descent is proved. A contract says when a
request may be made and what holds after it. It is enough to show that one request keeps a contract
whose nested requests keep theirs. What holds of every request anyway is its frame: the state stays
valid, the marks are taken off again, recorded types are not forgotten, the graph and the journal
only grow, and nothing stays open when there is a result.
-/

namespace SchemaGraph

instance decidableEqExcept {ε α : Type} [DecidableEq ε] [DecidableEq α] :
    DecidableEq (Except ε α)
  | .ok a, .ok b => decidable_of_iff (a = b) (by simp)
  | .error e, .error f => decidable_of_iff (e = f) (by simp)
  | .ok _, .error _ => isFalse (by simp)
  | .error _, .ok _ => isFalse (by simp)

namespace Descent

open Effect

theorem run_whileActive {α : Type} (effect : Effect α) (place : Place) (s : State)
    (h : place.loc ∉ s.active) :
    (whileActive place.loc place.node effect).run (s.asked place) =
      ((effect.run (s.begun place)).1,
        (effect.run (s.begun place)).2.ended place.loc (place.loc ∈ s.active)) := by
  unfold State.begun State.ended
  rw [if_neg h, if_neg h]
  rfl

theorem run_whileReentered {α : Type} (effect : Effect α) (place : Place) (s : State)
    (h : place.loc ∈ s.active) :
    (whileReentered place.loc place.node effect).run (s.asked place) =
      ((effect.run (s.begun place)).1,
        (effect.run (s.begun place)).2.ended place.loc (place.loc ∈ s.active)) := by
  unfold State.begun State.ended
  rw [if_pos h, if_pos h]
  rfl

def visit (place : Place) (dispatch : Effect Handle) : Effect Handle := do
  note (.requested place.loc place.node)
  let s ← state
  match s.memo.get? place.loc with
  | some h => return h
  | none =>
    if place.loc ∈ s.active then
      if place.loc ∈ s.reentered then fail (.unresolvedRecursion .endlessReference place.loc)
      else
        let h ← whileReentered place.loc place.node dispatch
        record place.loc h
        return h
    else
      let h ← whileActive place.loc place.node dispatch
      record place.loc h
      return h

theorem convertWithin_succ (depth : Nat) (place : Place) (hint : NameHint) :
    convertWithin (depth + 1) place.node place.loc hint =
      visit place (intoSchema (convertWithin depth) place.node place.loc hint) := rfl

theorem run_visit_known {place : Place} {s : State} {h : Handle} (dispatch : Effect Handle)
    (hknown : s.memo.get? place.loc = some h) :
    (visit place dispatch).run s = (.ok h, s.asked place) := by
  unfold visit note
  rw [run_bind, run_change]
  dsimp only
  rw [run_bind, run_state]
  dsimp only
  rw [hknown]
  rfl

section Visit

variable {place : Place} {s : State} {dispatch dispatch' : Effect Handle}
  {Q : Handle → State → Prop} {E : Fault → State → Prop}

theorem alike_marked {mark : Effect Handle → Effect Handle}
    (hmark : ∀ effect : Effect Handle, (mark effect).run (s.asked place) =
      ((effect.run (s.begun place)).1,
        (effect.run (s.begun place)).2.ended place.loc (place.loc ∈ s.active)))
    (h : Alike dispatch dispatch'
      (fun h t => Q h ((t.ended place.loc (place.loc ∈ s.active)).recorded place.loc h))
      (fun fault t => E fault (t.ended place.loc (place.loc ∈ s.active))) (s.begun place)) :
    Alike (do
      let h ← mark dispatch
      record place.loc h
      return h) (do
      let h ← mark dispatch'
      record place.loc h
      return h) Q E (s.asked place) := by
  unfold Alike
  rw [run_bind, run_bind, hmark, hmark, ← h.1]
  rcases hrun : dispatch.run (s.begun place) with ⟨fault | r, t⟩
  . exact ⟨rfl, h.error hrun⟩
  . exact ⟨rfl, h.ok hrun⟩

theorem alike_visit (hknown : ∀ h, s.memo.get? place.loc = some h → Q h (s.asked place))
    (hthird : ¬s.Knows place.loc → place.loc ∈ s.active → place.loc ∈ s.reentered →
      E (.unresolvedRecursion .endlessReference place.loc) (s.asked place))
    (hopen : ¬s.Knows place.loc → ¬(place.loc ∈ s.active ∧ place.loc ∈ s.reentered) →
      Alike dispatch dispatch'
        (fun h t => Q h ((t.ended place.loc (place.loc ∈ s.active)).recorded place.loc h))
        (fun fault t => E fault (t.ended place.loc (place.loc ∈ s.active))) (s.begun place)) :
    Alike (visit place dispatch) (visit place dispatch') Q E s := by
  unfold visit note
  apply alike_change_bind
  apply alike_state_bind
  change Alike _ _ Q E (s.asked place)
  dsimp only
  cases hget : s.memo.get? place.loc with
  | some h => exact alike_pure (hknown h hget)
  | none =>
    have hunknown : ¬s.Knows place.loc := Entries.get?_eq_none_iff.1 hget
    dsimp only
    by_cases hactive : place.loc ∈ s.active
    . rw [if_pos hactive, if_pos hactive]
      by_cases hreentered : place.loc ∈ s.reentered
      . rw [if_pos hreentered, if_pos hreentered]
        exact alike_fail (hthird hunknown hactive hreentered)
      . rw [if_neg hreentered, if_neg hreentered]
        exact alike_marked (fun effect => run_whileReentered effect place s hactive)
          (hopen hunknown fun h => hreentered h.2)
    . rw [if_neg hactive, if_neg hactive]
      exact alike_marked (fun effect => run_whileActive effect place s hactive)
        (hopen hunknown fun h => hactive h.1)

end Visit

/--
When a place may be asked for, and what holds after a result and after a fault.
-/
structure Contract where
  pre : Place → State → Prop
  post : Place → State → State → Prop
  fault : Place → State → Fault → State → Prop

def Contract.Met (C : Contract) (document : Json) (convert convert' : Convert) : Prop :=
  ∀ place hint s, s.Valid document → place.node.hasUniqueKeys = true → C.pre place s →
    Alike (convert place.node place.loc hint) (convert' place.node place.loc hint)
      (fun h t => Answered document place s h t ∧ C.post place s t)
      (fun fault t => (Frame s t ∧ t.Valid document) ∧ C.fault place s fault t) s

def Contract.frame : Contract where
  pre _ _ := True
  post _ _ _ := True
  fault _ _ _ _ := True

structure Opening (document : Json) (C : Contract) (place : Place) (s : State) : Prop where
  valid : s.Valid document
  keys : place.node.hasUniqueKeys = true
  pre : C.pre place s
  unknown : ¬s.Knows place.loc
  free : ¬(place.loc ∈ s.active ∧ place.loc ∈ s.reentered)

def Makes (document : Json) (made : Place → State → Handle → State → Prop) : Prop :=
  ∀ convert, Contract.frame.Met document convert convert → ∀ place hint s,
    Opening document .frame place s →
    Returns (intoSchema convert place.node place.loc hint) (made place s) (s.begun place)

/--
How requests that keep `inner` make up a request that keeps `outer`. While a place is converted from
the state `s` on, `body` holds of the edges that are still to be followed, of whether the place is
covered, and of the present state. In the end `made` holds.
-/
structure Contract.Step (document : Json) (inner outer : Contract)
    (made : Place → State → Handle → State → Prop)
    (body : Place → State → List Edge → Bool → State → Prop) : Prop where
  known {place s} : outer.pre place s → s.Knows place.loc → outer.post place s (s.asked place)
  third {place s} : outer.pre place s → ¬s.Knows place.loc → place.loc ∈ s.active →
    place.loc ∈ s.reentered →
    outer.fault place s (.unresolvedRecursion .endlessReference place.loc) (s.asked place)
  start {place s} : Opening document outer place s →
    body place s (place.edges document) false (s.begun place)
  graph {place s todo covered t g} : body place s todo covered t → t.graph.Evolves g →
    body place s todo covered { t with graph := g }
  merged {place s todo covered t loc records} : body place s todo covered t →
    body place s todo covered { t with journal := .merged loc records :: t.journal }
  joined {place s todo covered t loc reads} : body place s todo covered t →
    body place s todo covered { t with journal := .joined loc reads :: t.journal }
  record {place s todo t h} : Opening document outer place s → place.Opens →
    Frame (s.begun place) t → body place s todo false t →
    body place s todo true (t.recorded place.loc h)
  call {place s todo t} {edge : Edge} : Opening document outer place s →
    Frame (s.begun place) t → edge ∈ place.edges document →
    body place s (edge :: todo) edge.covered t → inner.pre edge.target t
  resume {place s todo t u} {edge : Edge} : Opening document outer place s →
    Frame (s.begun place) t → edge ∈ place.edges document →
    body place s (edge :: todo) edge.covered t → Frame t u → u.Knows edge.target.loc →
    inner.post edge.target t u → body place s todo edge.covered u
  abort {place s todo t u fault} {edge : Edge} : Opening document outer place s →
    Frame (s.begun place) t → edge ∈ place.edges document →
    body place s (edge :: todo) edge.covered t → Frame t u → inner.fault edge.target t fault u →
    outer.fault place s fault (u.ended place.loc (place.loc ∈ s.active))
  ordinary {place s todo covered t} {fault : Fault} : Opening document outer place s →
    Frame (s.begun place) t → body place s todo covered t → fault.isOrdinary = true →
    outer.fault place s fault (t.ended place.loc (place.loc ∈ s.active))
  finish {place s covered t h} : Opening document outer place s → Frame (s.begun place) t →
    body place s [] covered t → made place s h t →
    outer.post place s ((t.ended place.loc (place.loc ∈ s.active)).recorded place.loc h)

section Step

variable {document : Json} {inner outer : Contract} {place : Place} {s : State}
  {made : Place → State → Handle → State → Prop}
  {body : Place → State → List Edge → Bool → State → Prop}

theorem makes_true (document : Json) : Makes document fun _ _ _ _ => True :=
  fun _ _ _ _ _ _ => returns_of_forall fun _ _ => trivial

theorem returns_of_form {convert : Convert} {schema : Schema} {form : Form} {hint : NameHint}
    {Q : Handle → State → Prop} (hschema : Schema.ofJson place.node place.loc = .ok schema)
    (hform : schema.form place.loc = .ok form)
    (h : ∀ hint, Returns (intoForm convert schema place hint form) Q s) :
    Returns (intoSchema convert place.node place.loc hint) Q s := by
  rw [intoSchema_eq, hschema]
  apply alike_check_bind
  . exact fun _ _ => trivial
  rintro schema ⟨⟩
  rw [hform]
  apply alike_check_bind
  . exact fun _ _ => trivial
  rintro form ⟨⟩
  exact h _

theorem Contract.Step.flow (hC : Contract.Step document inner outer made body)
    (hs : Opening document outer place s) :
    Flow document place (s.begun place).graph
      (fun todo covered t => (Frame (s.begun place) t ∧ t.Valid document) ∧
        body place s todo covered t)
      (fun fault t => (Frame s (t.ended place.loc (place.loc ∈ s.active)) ∧
        (t.ended place.loc (place.loc ∈ s.active)).Valid document) ∧
          outer.fault place s fault (t.ended place.loc (place.loc ∈ s.active))) where
  keys := hs.keys
  valid h := h.1.2
  grows h := h.1.1.graph
  grown := by
    rintro todo covered t u ⟨⟨hframe, hvalid⟩, hbody⟩ htu
    refine ⟨⟨hframe.grown htu, hvalid.grown htu⟩, htu.keeps ?_ ?_ hbody⟩
    . exact fun t g hg hbody => hC.graph hbody hg
    . intro t event hevent hbody
      cases event with
      | merged loc records => exact hC.merged hbody
      | joined loc reads => exact hC.joined hbody
      | _ => cases hevent
  opened := by
    rintro todo t r shape hopens ⟨⟨hframe, hvalid⟩, hbody⟩ hgives
    have hframe' := hframe.grow (hframe.graph.trans hgives.grows)
    have hvalid' := hvalid.evolve hgives.evolves hgives.sound
    have hunknown : ¬(s.begun place).Knows place.loc := by
      rw [State.knows_begun]
      exact hs.unknown
    exact ⟨⟨hframe'.recorded hunknown _, hvalid'.recorded _ hgives.has⟩,
      hC.record hs hopens hframe' (hC.graph hbody hgives.evolves)⟩
  filled := by
    rintro todo covered t h shape g ⟨⟨hframe, hvalid⟩, hbody⟩ hnew hfills hsound
    exact ⟨⟨hframe.grow (hfills.grows hframe.graph hnew), hvalid.evolve hfills.evolves hsound⟩,
      hC.graph hbody hfills.evolves⟩
  fault := by
    rintro todo covered t fault ⟨⟨hframe, hvalid⟩, hbody⟩ hfault
    exact ⟨⟨hframe.ended, hvalid.ended _ _⟩, hC.ordinary hs hframe hbody hfault⟩

theorem Contract.Step.follows (hkeys : document.hasUniqueKeys = true)
    (hC : Contract.Step document inner outer made body) (hs : Opening document outer place s)
    {convert convert' : Convert} (hinner : inner.Met document convert convert') :
    Follows (place.edges document)
      (fun todo covered t => (Frame (s.begun place) t ∧ t.Valid document) ∧
        body place s todo covered t)
      (fun fault t => (Frame s (t.ended place.loc (place.loc ∈ s.active)) ∧
        (t.ended place.loc (place.loc ∈ s.active)).Valid document) ∧
          outer.fault place s fault (t.ended place.loc (place.loc ∈ s.active)))
      convert convert' := by
  rintro edge hedge todo hint t ⟨⟨hframe, hvalid⟩, hbody⟩
  have hnode := Place.hasUniqueKeys_of_edge hkeys hs.keys hedge
  apply (hinner edge.target hint t hvalid hnode (hC.call hs hframe hedge hbody)).mono
  . rintro h u ⟨hanswered, hpost⟩
    have hknows : u.Knows edge.target.loc := State.knows_iff.2 ⟨h, hanswered.memo⟩
    exact ⟨hanswered.toGained, ⟨hframe.trans hanswered.frame, hanswered.valid⟩,
      hC.resume hs hframe hedge hbody hanswered.frame hknows hpost⟩
  . rintro fault u ⟨⟨hu, hvalid'⟩, hfault⟩
    exact ⟨⟨(hframe.trans hu).ended, hvalid'.ended _ _⟩,
      hC.abort hs hframe hedge hbody hu hfault⟩

theorem answered_known {h : Handle} (hvalid : s.Valid document)
    (hknown : s.memo.get? place.loc = some h) : Answered document place s h (s.asked place) := by
  refine ⟨⟨.refl hvalid.sound, ?_⟩, Frame.asked s place, hvalid.asked place, hknown⟩
  intro h' hmem
  rw [List.mem_singleton.1 hmem]
  exact hvalid.memo hknown

theorem answered_recorded {h : Handle} {t : State} {again : Prop} [Decidable again]
    (hgained : Gained (s.begun place) [h] t) (hvalid : t.Valid document)
    (hframe : Frame s (t.ended place.loc again)) (hunknown : ¬s.Knows place.loc) :
    Answered document place s h ((t.ended place.loc again).recorded place.loc h) := by
  have hgraph : ((t.ended place.loc again).recorded place.loc h).graph = t.graph :=
    t.ended_graph place.loc again
  refine ⟨hgained.congr (s.begun_graph place).symm hgraph, hframe.recorded hunknown h, ?_, ?_⟩
  . apply (hvalid.ended place.loc again).recorded
    rw [t.ended_graph place.loc again]
    exact hgained.has h (List.mem_singleton_self _)
  . rw [State.get?_recorded, if_pos rfl]

theorem Contract.Step.met (hkeys : document.hasUniqueKeys = true)
    (hC : Contract.Step document inner outer made body) (hmade : Makes document made)
    {depth depth' : Nat}
    (hinner : inner.Met document (convertWithin depth) (convertWithin depth'))
    (hframe : Contract.frame.Met document (convertWithin depth) (convertWithin depth)) :
    outer.Met document (convertWithin (depth + 1)) (convertWithin (depth' + 1)) := by
  intro place hint s hvalid hnode hpre
  rw [convertWithin_succ, convertWithin_succ]
  apply alike_visit
  . exact fun h hknown => ⟨answered_known hvalid hknown, hC.known hpre (State.knows_iff.2 ⟨h, hknown⟩)⟩
  . exact fun hunknown hactive hreentered => ⟨⟨Frame.asked s place, hvalid.asked place⟩,
      hC.third hpre hunknown hactive hreentered⟩
  . intro hunknown hthird
    have hs : Opening document outer place s := ⟨hvalid, hnode, hpre, hunknown, hthird⟩
    have hbody := (alike_intoSchema (hC.flow hs) hint (hC.follows hkeys hs hinner)
      ⟨⟨Frame.refl _, hvalid.begun place⟩, hC.start hs⟩).and
        (hmade _ hframe place hint s ⟨hvalid, hnode, trivial, hunknown, hthird⟩)
    apply hbody.mono
    . rintro h t ⟨⟨hgained, covered, ⟨ht, hvalid'⟩, hend⟩, hmade'⟩
      exact ⟨answered_recorded hgained hvalid' ht.ended hunknown, hC.finish hs ht hend hmade'⟩
    . exact fun fault t h => h.1

end Step

theorem frame_step (document : Json) :
    Contract.Step document .frame .frame (fun _ _ _ _ => True) (fun _ _ _ _ _ => True) where
  known _ _ := trivial
  third _ _ _ _ := trivial
  start _ := trivial
  graph _ _ := trivial
  merged _ := trivial
  joined _ := trivial
  record _ _ _ _ := trivial
  call _ _ _ _ := trivial
  resume _ _ _ _ _ _ _ := trivial
  abort _ _ _ _ _ _ := trivial
  ordinary _ _ _ _ := trivial
  finish _ _ _ _ := trivial

section

variable {document : Json}

theorem frame_met (hkeys : document.hasUniqueKeys = true) (depth : Nat) :
    Contract.frame.Met document (convertWithin depth) (convertWithin depth) := by
  induction depth with
  | zero =>
    intro place hint s hvalid _ _
    exact ⟨rfl, ⟨Frame.refl s, hvalid⟩, trivial⟩
  | succ depth ih => exact (frame_step document).met hkeys (makes_true document) ih ih

theorem Contract.Step.met_all {C : Contract} {made : Place → State → Handle → State → Prop}
    {body : Place → State → List Edge → Bool → State → Prop}
    (hC : Contract.Step document C C made body) (hkeys : document.hasUniqueKeys = true)
    (hmade : Makes document made)
    (hzero : ∀ place s, C.pre place s → C.fault place s (.endlessDescent place.loc) s)
    (depth : Nat) : C.Met document (convertWithin depth) (convertWithin depth) := by
  induction depth with
  | zero =>
    intro place hint s hvalid _ hpre
    exact ⟨rfl, ⟨Frame.refl s, hvalid⟩, hzero place s hpre⟩
  | succ depth ih => exact hC.met hkeys hmade ih (frame_met hkeys depth)

theorem ends_convert {C : Contract}
    (hC : ∀ depth, C.Met document (convertWithin depth) (convertWithin depth)) (place : Place)
    (hint : NameHint) {s : State} (hs : s.Valid document) (hnode : place.node.hasUniqueKeys = true)
    (hpre : C.pre place s) :
    Ends (convert place.node place.loc hint)
      (fun h t => Answered document place s h t ∧ C.post place s t)
      (fun fault t => (Frame s t ∧ t.Valid document) ∧ C.fault place s fault t) s := by
  unfold convert
  apply alike_state_bind
  exact hC _ place hint s hs hnode hpre

theorem ends_run (hkeys : document.hasUniqueKeys = true) {C : Contract}
    (hC : ∀ depth, C.Met document (convertWithin depth) (convertWithin depth)) (options : Options)
    (hpre : C.pre ⟨document, .root⟩ (.start document)) :
    Ends (convert document .root (.inferred options.rootName))
      (fun h t => Answered document ⟨document, .root⟩ (.start document) h t ∧
        C.post ⟨document, .root⟩ (.start document) t)
      (C.fault ⟨document, .root⟩ (.start document)) (.start document) := by
  apply (ends_convert hC ⟨document, .root⟩ _ (State.valid_start document) hkeys hpre).mono
    (fun _ _ => id)
  exact fun _ _ h => h.2

end

end Descent

end SchemaGraph
