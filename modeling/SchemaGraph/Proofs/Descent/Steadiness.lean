import SchemaGraph.Proofs.Descent.Openings

/-!
This module contains the proof that a location has one type, unless its conversion begins again
inside itself. A record or a map may be recorded before it is filled in, and the type that is
recorded in the end supersedes it. When the conversion of a location begins twice, each time may
make a type of its own.
-/

namespace SchemaGraph

namespace State

def Steady (s : State) (g : Graph) (loc : Location) : Prop :=
  (s.types loc).Pairwise g.Supersedes

def Reenters (s : State) (loc : Location) : Prop :=
  ∃ node memo, .reentered loc node memo ∈ s.journal

def Quiet (s : State) : Prop :=
  ∀ loc, ¬s.Reenters loc → s.Steady s.graph loc

variable {s t : State} {g : Graph} {loc : Location} {place : Place}

theorem Steady.earlier (ht : t.Steady g loc) (htypes : s.types loc <:+ t.types loc) :
    s.Steady g loc :=
  ht.sublist htypes.sublist

theorem Reenters.later (hs : s.Reenters loc) (hjournal : s.journal <:+ t.journal) :
    t.Reenters loc := by
  obtain ⟨node, memo, hmem⟩ := hs
  exact ⟨node, memo, hjournal.subset hmem⟩

theorem reenters_begun (hactive : place.loc ∈ s.active) : (s.begun place).Reenters place.loc := by
  unfold begun
  rw [if_pos hactive]
  exact ⟨_, _, List.mem_cons_self ..⟩

theorem Quiet.later (hs : s.Quiet) (hgraph : s.graph.Evolves t.graph)
    (hjournal : s.journal <:+ t.journal) (htypes : ∀ loc, t.types loc = s.types loc) :
    t.Quiet := by
  intro loc hloc
  have hsteady := hs loc fun hreenters => hloc (hreenters.later hjournal)
  unfold Steady
  rw [htypes]
  exact hsteady.imp fun hk => hk.evolve hgraph

theorem Quiet.recorded {h : Handle} (hs : s.Quiet)
    (hloc : ¬s.Reenters loc → ∀ k ∈ s.types loc, s.graph.Supersedes h k) :
    (s.recorded loc h).Quiet := by
  intro loc' hloc'
  have hfree : ¬s.Reenters loc' := fun hreenters => hloc' (hreenters.later (List.suffix_cons _ _))
  unfold Steady
  rw [types_recorded]
  split
  . next heq =>
    subst heq
    exact List.pairwise_cons.2 ⟨hloc hfree, hs _ hfree⟩
  . exact hs loc' hfree

end State

namespace Descent

def steadying : Contract where
  pre _ s := s.Quiet
  post _ s t := t.Quiet ∧ ∀ loc ∈ s.active, ¬t.Reenters loc → t.types loc = s.types loc
  fault _ _ _ _ := True

structure Steadies (place : Place) (s : State) (covered : Bool) (t : State) : Prop where
  quiet : t.Quiet
  active : ∀ loc ∈ s.active, ¬t.Reenters loc → t.types loc = s.types loc
  opened : ¬t.Reenters place.loc → if covered = true then
    place.Opens ∧ (t.types place.loc).length = 1 else t.types place.loc = []

section

variable {document : Json} {place : Place} {s t u : State} {covered : Bool} {h : Handle}

theorem Steadies.later (ht : Steadies place s covered t) (hgraph : t.graph.Evolves u.graph)
    (hjournal : t.journal <:+ u.journal) (htypes : ∀ loc, u.types loc = t.types loc) :
    Steadies place s covered u where
  quiet := ht.quiet.later hgraph hjournal htypes
  active := by
    intro loc hloc hfree
    rw [htypes]
    exact ht.active loc hloc fun hreenters => hfree (hreenters.later hjournal)
  opened := by
    intro hfree
    rw [htypes]
    exact ht.opened fun hreenters => hfree (hreenters.later hjournal)

theorem Steadies.active_recorded (ht : Steadies place s covered t)
    (hjournal : (s.begun place).journal <:+ t.journal) :
    ∀ loc ∈ s.active, ¬(t.recorded place.loc h).Reenters loc →
      (t.recorded place.loc h).types loc = s.types loc := by
  intro loc hloc hfree
  have hfree' : ¬t.Reenters loc := fun hreenters => hfree (hreenters.later (List.suffix_cons _ _))
  have hne : place.loc ≠ loc := by
    rintro rfl
    exact hfree' ((State.reenters_begun hloc).later hjournal)
  rw [State.types_recorded, if_neg hne]
  exact ht.active loc hloc hfree'

theorem Steadies.recorded (ht : Steadies place s false t) (hopens : place.Opens)
    (hjournal : (s.begun place).journal <:+ t.journal) :
    Steadies place s true (t.recorded place.loc h) where
  quiet := by
    apply ht.quiet.recorded
    intro hfree k hk
    rw [show t.types place.loc = [] from ht.opened hfree] at hk
    cases hk
  active := ht.active_recorded hjournal
  opened := by
    intro hfree
    have hnone : t.types place.loc = [] :=
      ht.opened fun hreenters => hfree (hreenters.later (List.suffix_cons _ _))
    rw [if_pos rfl, State.types_recorded, if_pos rfl, hnone]
    exact ⟨hopens, rfl⟩

theorem Steadies.resume (ht : Steadies place s covered t) (hframe : Frame (s.begun place) t)
    (hu : Frame t u) (hquiet : u.Quiet)
    (hactive : ∀ loc ∈ t.active, ¬u.Reenters loc → u.types loc = t.types loc) :
    Steadies place s covered u where
  quiet := hquiet
  active := by
    intro loc hloc hfree
    have hmem : loc ∈ t.active := by
      rw [hframe.active, State.mem_active_begun]
      exact Or.inr hloc
    rw [hactive loc hmem hfree]
    exact ht.active loc hloc fun hreenters => hfree (hreenters.later hu.journal)
  opened := by
    intro hfree
    have hmem : place.loc ∈ t.active := by
      rw [hframe.active, State.mem_active_begun]
      exact Or.inl rfl
    rw [hactive _ hmem hfree]
    exact ht.opened fun hreenters => hfree (hreenters.later hu.journal)

theorem Steadies.finish (ht : Steadies place s covered t)
    (hjournal : (s.begun place).journal <:+ t.journal)
    (hretained : place.Opens → ∃ object, (t.types place.loc).head? = some object ∧
      t.graph.Supersedes h object) :
    steadying.post place s (t.recorded place.loc h) := by
  refine ⟨ht.quiet.recorded ?_, ht.active_recorded hjournal⟩
  intro hfree k hk
  have hopened := ht.opened hfree
  split at hopened
  . obtain ⟨hopens, hlength⟩ := hopened
    obtain ⟨type, htype⟩ := List.length_eq_one_iff.1 hlength
    obtain ⟨object, hobject, hsupersedes⟩ := hretained hopens
    rw [htype] at hobject hk
    cases hobject
    rwa [List.mem_singleton.1 hk]
  . rw [hopened] at hk
    cases hk

theorem steadying_start (hs : Opening document steadying place s) :
    Steadies place s false (s.begun place) := by
  refine ⟨hs.pre.later ?_ (s.suffix_begun place) (s.types_begun place),
    fun loc _ _ => s.types_begun place loc, ?_⟩
  . rw [s.begun_graph place]
    exact .refl _
  . intro _
    rw [if_neg (by simp), State.types_begun]
    -- No type is recorded for the place yet.
    have hunknown := hs.valid.latest place.loc
    rw [Entries.get?_eq_none_iff.2 hs.unknown] at hunknown
    exact List.head?_eq_none_iff.1 hunknown.symm

theorem steadying_step (document : Json) :
    Contract.Step document steadying steadying Retained
      (fun place s _ covered t => Steadies place s covered t) where
  known {place s} hs _ := ⟨hs.later (.refl _) (List.suffix_cons _ _) (s.types_asked place),
    fun loc _ _ => s.types_asked place loc⟩
  third _ _ _ _ := trivial
  start := steadying_start
  graph ht hg := ht.later hg List.suffix_rfl fun _ => rfl
  merged ht := ht.later (.refl _) (List.suffix_cons _ _) fun _ => rfl
  joined ht := ht.later (.refl _) (List.suffix_cons _ _) fun _ => rfl
  record _ hopens hframe ht := ht.recorded hopens hframe.journal
  call _ _ _ ht := ht.quiet
  resume _ hframe _ ht hu _ hpost := ht.resume hframe hu hpost.1 hpost.2
  abort _ _ _ _ _ _ := trivial
  ordinary _ _ _ _ := trivial
  finish := by
    intro place s covered t h _ hframe ht hretained
    have hgraph := t.ended_graph place.loc (place.loc ∈ s.active)
    have hjournal := t.suffix_ended place.loc (place.loc ∈ s.active)
    have htypes := fun loc => t.types_ended place.loc loc (place.loc ∈ s.active)
    refine (ht.later (by rw [hgraph]; exact .refl _) hjournal htypes).finish
      (hframe.journal.trans hjournal) ?_
    rw [htypes, hgraph]
    exact hretained

theorem steadying_met (hkeys : document.hasUniqueKeys = true) (depth : Nat) :
    steadying.Met document (convertWithin depth) (convertWithin depth) :=
  (steadying_step document).met_all hkeys (makes_retained document) (fun _ _ _ => trivial) depth

end

end Descent

end SchemaGraph
