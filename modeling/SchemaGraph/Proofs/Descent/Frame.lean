import SchemaGraph.Proofs.Unification.Cover

/-!
This module contains the states that the conversion of a place goes through, and what is the same in
all of them: the document stays, recorded types are not forgotten, the graph and the journal only
grow. The handles that a state knows of belong to its graph.
-/

namespace SchemaGraph

def Event.type? (loc : Location) : Event → Option Handle
  | .recorded loc' type => if loc' = loc then some type else none
  | _ => none

namespace State

def asked (s : State) (place : Place) : State :=
  { s with journal := .requested place.loc place.node :: s.journal }

def begun (s : State) (place : Place) : State :=
  if place.loc ∈ s.active then
    { s with
      reentered := place.loc :: s.reentered
      journal := .reentered place.loc place.node s.memo :: (s.asked place).journal }
  else
    { s with
      active := place.loc :: s.active
      journal := .entered place.loc place.node :: (s.asked place).journal }

def ended (s : State) (loc : Location) (again : Prop) [Decidable again] : State :=
  if again then
    { s with reentered := s.reentered.erase loc, journal := .left loc :: s.journal }
  else { s with active := s.active.erase loc, journal := .left loc :: s.journal }

def recorded (s : State) (loc : Location) (h : Handle) : State :=
  { s with memo := s.memo.put loc h, journal := .recorded loc h :: s.journal }

def types (s : State) (loc : Location) : List Handle :=
  s.journal.filterMap (Event.type? loc)

theorem begun_document (s : State) (place : Place) : (s.begun place).document = s.document := by
  unfold begun
  split
  . rfl
  . rfl

theorem begun_graph (s : State) (place : Place) : (s.begun place).graph = s.graph := by
  unfold begun
  split
  . rfl
  . rfl

theorem begun_memo (s : State) (place : Place) : (s.begun place).memo = s.memo := by
  unfold begun
  split
  . rfl
  . rfl

theorem ended_graph (s : State) (loc : Location) (again : Prop) [Decidable again] :
    (s.ended loc again).graph = s.graph := by
  unfold ended
  split
  . rfl
  . rfl

theorem ended_memo (s : State) (loc : Location) (again : Prop) [Decidable again] :
    (s.ended loc again).memo = s.memo := by
  unfold ended
  split
  . rfl
  . rfl

theorem ended_document (s : State) (loc : Location) (again : Prop) [Decidable again] :
    (s.ended loc again).document = s.document := by
  unfold ended
  split
  . rfl
  . rfl

theorem get?_recorded (s : State) (loc loc' : Location) (h : Handle) :
    (s.recorded loc h).memo.get? loc' = if loc = loc' then some h else s.memo.get? loc' :=
  Entries.get?_put s.memo loc loc' h

theorem mem_active_begun {s : State} {place : Place} {loc : Location} :
    loc ∈ (s.begun place).active ↔ loc = place.loc ∨ loc ∈ s.active := by
  unfold begun
  split
  . next hactive =>
    constructor
    . exact Or.inr
    . rintro (rfl | h)
      . exact hactive
      . exact h
  . exact List.mem_cons

theorem suffix_begun (s : State) (place : Place) : s.journal <:+ (s.begun place).journal := by
  have hjournal : s.journal <:+ (s.asked place).journal := List.suffix_cons _ _
  unfold begun
  split
  . exact hjournal.trans (List.suffix_cons _ _)
  . exact hjournal.trans (List.suffix_cons _ _)

theorem suffix_ended (s : State) (loc : Location) (again : Prop) [Decidable again] :
    s.journal <:+ (s.ended loc again).journal := by
  unfold ended
  split
  . exact List.suffix_cons _ _
  . exact List.suffix_cons _ _

theorem types_note (s : State) (loc : Location) {event : Event} (h : event.type? loc = none) :
    State.types { s with journal := event :: s.journal } loc = s.types loc :=
  List.filterMap_cons_none h

theorem types_asked (s : State) (place : Place) (loc : Location) :
    (s.asked place).types loc = s.types loc :=
  s.types_note loc rfl

theorem types_begun (s : State) (place : Place) (loc : Location) :
    (s.begun place).types loc = s.types loc := by
  unfold begun
  split
  . rfl
  . rfl

theorem types_ended (s : State) (loc loc' : Location) (again : Prop) [Decidable again] :
    (s.ended loc again).types loc' = s.types loc' := by
  unfold ended
  split
  . rfl
  . rfl

theorem types_recorded (s : State) (loc loc' : Location) (h : Handle) :
    (s.recorded loc h).types loc' = if loc = loc' then h :: s.types loc' else s.types loc' := by
  have htype : (Event.recorded loc h).type? loc' = if loc = loc' then some h else none := rfl
  unfold types recorded
  dsimp only
  split
  . next hloc => exact List.filterMap_cons_some (by rw [htype, if_pos hloc])
  . next hloc => exact List.filterMap_cons_none (by rw [htype, if_neg hloc])

theorem types_suffix_recorded (s : State) (loc loc' : Location) (h : Handle) :
    s.types loc' <:+ (s.recorded loc h).types loc' := by
  rw [types_recorded]
  split
  . exact List.suffix_cons _ _
  . exact List.suffix_rfl

section Journal

variable {s : State} {place : Place} {event : Event}

theorem mem_journal_asked (h : event ∈ (s.asked place).journal) :
    event = .requested place.loc place.node ∨ event ∈ s.journal :=
  List.mem_cons.1 h

theorem mem_journal_begun (h : event ∈ (s.begun place).journal) :
    event = .entered place.loc place.node ∨ event = .reentered place.loc place.node s.memo ∨
      event = .requested place.loc place.node ∨ event ∈ s.journal := by
  unfold begun at h
  split at h
  . rcases List.mem_cons.1 h with heq | h
    . exact Or.inr (Or.inl heq)
    . exact Or.inr (Or.inr (mem_journal_asked h))
  . rcases List.mem_cons.1 h with heq | h
    . exact Or.inl heq
    . exact Or.inr (Or.inr (mem_journal_asked h))

theorem mem_journal_ended {loc : Location} {again : Prop} [Decidable again]
    (h : event ∈ (s.ended loc again).journal) : event = .left loc ∨ event ∈ s.journal := by
  unfold ended at h
  split at h
  . exact List.mem_cons.1 h
  . exact List.mem_cons.1 h

theorem joined_of_asked {loc : Location} {reads : List (Handle × Handle)}
    (h : .joined loc reads ∈ (s.asked place).journal) : .joined loc reads ∈ s.journal := by
  rcases mem_journal_asked h with heq | hmem
  . cases heq
  . exact hmem

theorem joined_of_begun {loc : Location} {reads : List (Handle × Handle)}
    (h : .joined loc reads ∈ (s.begun place).journal) : .joined loc reads ∈ s.journal := by
  rcases mem_journal_begun h with heq | heq | heq | hmem
  . cases heq
  . cases heq
  . cases heq
  . exact hmem

theorem joined_of_ended {loc loc' : Location} {again : Prop} [Decidable again]
    {reads : List (Handle × Handle)} (h : .joined loc reads ∈ (s.ended loc' again).journal) :
    .joined loc reads ∈ s.journal := by
  rcases mem_journal_ended h with heq | hmem
  . cases heq
  . exact hmem

end Journal

def Notes (P : Event → Prop) (s : State) : Prop :=
  ∀ event ∈ s.journal, P event

section Notes

variable {P : Event → Prop} {s : State} {place : Place}

theorem notes_start (document : Json) : (start document).Notes P :=
  fun _ hmem => nomatch hmem

theorem Notes.note {event : Event} (h : s.Notes P) (hevent : P event) :
    Notes P { s with journal := event :: s.journal } :=
  List.forall_mem_cons.2 ⟨hevent, h⟩

theorem Notes.asked (h : s.Notes P) (hasked : P (.requested place.loc place.node)) :
    (s.asked place).Notes P :=
  h.note hasked

theorem Notes.begun (h : s.Notes P) (hasked : P (.requested place.loc place.node))
    (hfirst : P (.entered place.loc place.node))
    (hagain : place.loc ∈ s.active → P (.reentered place.loc place.node s.memo)) :
    (s.begun place).Notes P := by
  unfold State.begun
  split
  . next hactive => exact (h.asked hasked).note (hagain hactive)
  . exact (h.asked hasked).note hfirst

theorem Notes.recorded {loc : Location} {h : Handle} (hs : s.Notes P)
    (hrecorded : P (.recorded loc h)) : (s.recorded loc h).Notes P :=
  hs.note hrecorded

theorem Notes.ended {loc : Location} {again : Prop} [Decidable again] (h : s.Notes P)
    (hleft : P (.left loc)) : (s.ended loc again).Notes P := by
  unfold State.ended
  split
  . exact h.note hleft
  . exact h.note hleft

end Notes

def Knows (s : State) (loc : Location) : Prop :=
  loc ∈ s.memo.keys

theorem knows_recorded {s : State} {loc loc' : Location} {h : Handle} :
    (s.recorded loc h).Knows loc' ↔ loc' = loc ∨ s.Knows loc' :=
  Entries.mem_keys_put

theorem knows_begun {s : State} {place : Place} {loc : Location} :
    (s.begun place).Knows loc ↔ s.Knows loc := by
  unfold begun
  split
  . rfl
  . rfl

theorem knows_ended {s : State} {loc loc' : Location} {again : Prop} [Decidable again] :
    (s.ended loc again).Knows loc' ↔ s.Knows loc' := by
  unfold ended
  split
  . rfl
  . rfl

end State

structure State.Valid (document : Json) (s : State) : Prop where
  document : s.document = document
  sound : s.graph.Sound
  memo {loc h} : s.memo.get? loc = some h → s.graph.Has h
  latest loc : s.memo.get? loc = (s.types loc).head?

structure Gained (s : State) (hs : List Handle) (t : State) : Prop
    extends s.graph.Built t.graph where
  has : ∀ h ∈ hs, t.graph.Has h

structure Frame (s t : State) : Prop where
  document : t.document = s.document
  active : t.active = s.active
  reentered : t.reentered = s.reentered
  memo {loc h} : s.memo.get? loc = some h → t.memo.get? loc = some h
  graph : s.graph.Grows t.graph
  journal : s.journal <:+ t.journal

structure Answered (document : Json) (place : Place) (s : State) (h : Handle) (t : State) : Prop
    extends Gained s [h] t where
  frame : Frame s t
  valid : t.Valid document
  memo : t.memo.get? place.loc = some h

section

variable {document : Json} {place : Place} {s t u : State} {h : Handle} {hs ks : List Handle}

theorem State.knows_iff {loc : Location} : s.Knows loc ↔ ∃ h, s.memo.get? loc = some h :=
  Entries.mem_keys_iff

theorem State.valid_start (document : Json) : (State.start document).Valid document :=
  ⟨rfl, Graph.sound_empty, fun hget => (nomatch hget), fun _ => rfl⟩

theorem State.Grown.types (hst : s.Grown t) (loc : Location) : t.types loc = s.types loc := by
  obtain ⟨news, hnews, hevents⟩ := hst.journal
  have hnone : news.filterMap (Event.type? loc) = [] := by
    rw [List.filterMap_eq_nil_iff]
    intro event hmem
    have hevent := hevents event hmem
    cases event with
    | merged loc records => rfl
    | joined loc reads => rfl
    | _ => cases hevent
  unfold State.types
  rw [hnews, List.filterMap_append, hnone, List.nil_append]

theorem State.Valid.grown (hs : s.Valid document) (hst : s.Grown t) : t.Valid document := by
  refine ⟨hst.document.trans hs.document, hst.sound, ?_, ?_⟩
  . intro loc h hget
    rw [hst.memo] at hget
    exact hst.evolves.has h (hs.memo hget)
  . intro loc
    rw [hst.memo, hst.types, hs.latest]

theorem State.Valid.recorded (hs : s.Valid document) (loc : Location) (hhas : s.graph.Has h) :
    (s.recorded loc h).Valid document := by
  refine ⟨hs.document, hs.sound, ?_, ?_⟩
  . intro loc' h' hget
    rw [State.get?_recorded] at hget
    split at hget
    . cases hget
      exact hhas
    . exact hs.memo hget
  . intro loc'
    rw [State.get?_recorded, State.types_recorded]
    split
    . rfl
    . exact hs.latest loc'

theorem State.Valid.congr (hs : s.Valid document) (hdocument : t.document = s.document)
    (hgraph : t.graph = s.graph) (hmemo : t.memo = s.memo)
    (htypes : ∀ loc, t.types loc = s.types loc) : t.Valid document := by
  refine ⟨hdocument.trans hs.document, by rw [hgraph]; exact hs.sound, ?_, ?_⟩
  . intro loc h hget
    rw [hmemo] at hget
    rw [hgraph]
    exact hs.memo hget
  . intro loc
    rw [hmemo, htypes, hs.latest]

theorem State.Valid.asked (hs : s.Valid document) (place : Place) :
    (s.asked place).Valid document :=
  hs.congr rfl rfl rfl (s.types_asked place)

theorem State.Valid.begun (hs : s.Valid document) (place : Place) :
    (s.begun place).Valid document :=
  hs.congr (s.begun_document place) (s.begun_graph place) (s.begun_memo place)
    (s.types_begun place)

theorem State.Valid.ended (hs : s.Valid document) (loc : Location) (again : Prop)
    [Decidable again] : (s.ended loc again).Valid document :=
  hs.congr (s.ended_document loc again) (s.ended_graph loc again) (s.ended_memo loc again)
    fun loc' => s.types_ended loc loc' again

theorem State.Valid.evolve {g : Graph} (hs : s.Valid document) (hg : s.graph.Evolves g)
    (hsound : g.Sound) : State.Valid document { s with graph := g } :=
  ⟨hs.document, hsound, fun hget => hg.has _ (hs.memo hget), hs.latest⟩

theorem Gained.congr {s' t' : State} (hst : Gained s hs t) (hs' : s'.graph = s.graph)
    (ht' : t'.graph = t.graph) : Gained s' hs t' := by
  refine ⟨?_, ?_⟩
  . rw [hs', ht']
    exact hst.toBuilt
  . rw [ht']
    exact hst.has

theorem Gained.nil (hs : s.graph.Sound) : Gained s [] s :=
  ⟨.refl hs, fun _ hmem => nomatch hmem⟩

theorem Gained.after (hst : Gained s hs t) (htu : Gained t ks u) : Gained s ks u :=
  ⟨hst.toBuilt.trans htu.toBuilt, htu.has⟩

theorem Gained.cons (hst : Gained s [h] t) (htu : Gained t ks u) : Gained s (h :: ks) u := by
  refine ⟨hst.toBuilt.trans htu.toBuilt, List.forall_mem_cons.2 ⟨?_, htu.has⟩⟩
  exact htu.grows.has h (hst.has h (List.mem_singleton_self _))

theorem Frame.refl (s : State) : Frame s s :=
  ⟨rfl, rfl, rfl, id, .refl _, List.suffix_rfl⟩

theorem Frame.trans (hst : Frame s t) (htu : Frame t u) : Frame s u :=
  ⟨htu.document.trans hst.document, htu.active.trans hst.active,
    htu.reentered.trans hst.reentered, fun hget => htu.memo (hst.memo hget),
    hst.graph.trans htu.graph, hst.journal.trans htu.journal⟩

theorem Frame.knows {loc : Location} (hst : Frame s t) (hs : s.Knows loc) : t.Knows loc := by
  obtain ⟨h, hget⟩ := State.knows_iff.1 hs
  exact State.knows_iff.2 ⟨h, hst.memo hget⟩

theorem Frame.grow {g : Graph} (hst : Frame s t) (hg : s.graph.Grows g) :
    Frame s { t with graph := g } :=
  ⟨hst.document, hst.active, hst.reentered, hst.memo, hg, hst.journal⟩

theorem Frame.grown (hst : Frame s t) (htu : t.Grown u) : Frame s u := by
  refine ⟨htu.document.trans hst.document, htu.active.trans hst.active,
    htu.reentered.trans hst.reentered, ?_, hst.graph.trans htu.graph.grows,
    hst.journal.trans htu.suffix⟩
  intro loc h hget
  rw [htu.memo]
  exact hst.memo hget

theorem Frame.asked (s : State) (place : Place) : Frame s (s.asked place) :=
  ⟨rfl, rfl, rfl, id, .refl _, List.suffix_cons _ _⟩

theorem Frame.ended (hst : Frame (s.begun place) t) :
    Frame s (t.ended place.loc (place.loc ∈ s.active)) := by
  have hjournal : s.journal <:+ (t.ended place.loc (place.loc ∈ s.active)).journal :=
    ((s.suffix_begun place).trans hst.journal).trans (t.suffix_ended _ _)
  unfold State.begun at hst
  unfold State.ended at hjournal ⊢
  split at hst
  . next hactive =>
    rw [if_pos hactive] at hjournal ⊢
    refine ⟨hst.document, hst.active, ?_, hst.memo, hst.graph, hjournal⟩
    show t.reentered.erase place.loc = s.reentered
    rw [hst.reentered, List.erase_cons_head]
  . next hactive =>
    rw [if_neg hactive] at hjournal ⊢
    refine ⟨hst.document, ?_, hst.reentered, hst.memo, hst.graph, hjournal⟩
    show t.active.erase place.loc = s.active
    rw [hst.active, List.erase_cons_head]

theorem Frame.recorded {loc : Location} (hst : Frame s t) (hunknown : ¬s.Knows loc) (h : Handle) :
    Frame s (t.recorded loc h) := by
  refine ⟨hst.document, hst.active, hst.reentered, ?_, hst.graph,
    hst.journal.trans (List.suffix_cons _ _)⟩
  intro loc' h' hget
  rw [State.get?_recorded, if_neg]
  . exact hst.memo hget
  . rintro rfl
    exact hunknown (State.knows_iff.2 ⟨h', hget⟩)

end

end SchemaGraph
