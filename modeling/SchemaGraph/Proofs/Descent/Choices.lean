import SchemaGraph.Proofs.Descent.Requests

/-!
This module contains the proof that the type of a choice covers the types of its alternatives. While
a choice is under way, the types of its alternatives may still change, and an alternative is asked
for by its choice only. So after the last conversion of the choice the types that were unified are
the ones that stay recorded. What may change later are maps: an open map is joined with itself as
its values, so the choice covers it only if these are the values that it gets.
-/

namespace SchemaGraph

/--
The type of the choice `p` covers the type of its alternative `q`, if the maps that were joined for
it have the values with which they were read.
-/
def State.Includes (M : Moments) (s : State) (p q : Place) : Prop :=
  ∃ h k, s.memo.get? p.loc = some h ∧ s.memo.get? q.loc = some k ∧
    s.graph.Covers M (fun g value => s.Foresees p.loc g ∧ Accepts M g k value) h

def State.Settled (document : Json) (M : Moments) (s : State) : Prop :=
  ∀ p q, Addressed document p → Place.Links document .alternative p q → p.loc ∉ s.active →
    s.Knows p.loc → s.Includes M p q

def State.Nested (document : Json) (s : State) : Prop :=
  ∀ p q, Addressed document p → Place.Links document .alternative p q → q.loc ∈ s.active →
    p.loc ∈ s.active

def Event.isForeseen (loc : Location) (g : Graph) : Event → Bool
  | .joined loc' reads =>
    !decide (loc.steps <+: loc'.steps) || reads.all fun read => g.valuesOf? read.1 = some read.2
  | _ => true

theorem State.foresees_of_all {s : State} {loc : Location} {g : Graph}
    (h : s.journal.all (Event.isForeseen loc g) = true) : s.Foresees loc g := by
  intro loc' reads hmem hwithin map values hread
  have hevent := List.all_eq_true.1 h _ hmem
  unfold Event.isForeseen at hevent
  dsimp only at hevent
  rw [decide_eq_true (show loc.steps <+: loc'.steps from hwithin)] at hevent
  exact of_decide_eq_true (List.all_eq_true.1 hevent _ hread)

section

variable {document : Json} {M : Moments} {s t : State} {p q place : Place} {h : Handle}

theorem State.Includes.later (hs : s.Includes M p q)
    (hp : t.memo.get? p.loc = s.memo.get? p.loc) (hq : t.memo.get? q.loc = s.memo.get? q.loc)
    (hgraph : s.graph.Evolves t.graph) (hjournal : s.journal <:+ t.journal) : t.Includes M p q := by
  obtain ⟨h, k, hh, hk, hcovers⟩ := hs
  exact ⟨h, k, hp.trans hh, hq.trans hk, State.Foresees.covers hcovers hgraph hjournal⟩

theorem State.Settled.later (hs : s.Settled document M)
    (hactive : ∀ loc ∈ s.active, loc ∈ t.active) (hmemo : t.memo = s.memo)
    (hgraph : s.graph.Evolves t.graph) (hjournal : s.journal <:+ t.journal) :
    t.Settled document M := by
  intro p q hp hq hfree hknown
  unfold State.Knows at hknown
  rw [hmemo] at hknown
  have hincludes := hs p q hp hq (fun hloc => hfree (hactive p.loc hloc)) hknown
  exact hincludes.later (by rw [hmemo]) (by rw [hmemo]) hgraph hjournal

theorem State.Includes.recorded (hs : s.Includes M p q) {loc : Location} (hp : p.loc ≠ loc)
    (hq : q.loc ≠ loc) : (s.recorded loc h).Includes M p q := by
  apply hs.later
  . rw [get?_recorded, if_neg (Ne.symm hp)]
  . rw [get?_recorded, if_neg (Ne.symm hq)]
  . exact .refl _
  . exact List.suffix_cons _ _

theorem Place.alternative_ne (hq : Place.Links document .alternative p q) : q.loc ≠ p.loc := by
  obtain ⟨schema, step, nodes, index, -, -, -, hloc⟩ := Place.form_of_alternative hq
  intro heq
  rw [heq] at hloc
  have hlength := congrArg (fun loc => loc.steps.length) hloc
  rw [Location.child_steps, List.length_append] at hlength
  exact absurd hlength (by simp)

theorem Addressed.not_alternative_root (hp : Addressed document p) :
    ¬Place.Links document .alternative p ⟨document, .root⟩ := by
  intro hq
  obtain ⟨schema, step, nodes, index, -, -, -, hloc⟩ := Place.form_of_alternative hq
  exact hp.child_ne_root (step index) hloc.symm

end

namespace Descent

open Effect

section

variable {document : Json} {M : Moments} {convert : Convert} {s : State} {loc : Location}

theorem gathers_alternatives (hc : Contract.frame.Met document convert convert) (step : Nat → Step)
    (hint : NameHint) (index : Nat) (nodes : List Json)
    (hnodes : ∀ node ∈ nodes, node.hasUniqueKeys = true) (hs : s.Valid document) :
    Returns (intoAlternatives convert step loc hint index nodes) (fun types t =>
      (Frame s t ∧ t.Valid document ∧ ∀ type ∈ types, t.graph.Has type) ∧
        ∀ (i : Nat) (node : Json), nodes[i]? = some node →
          ∃ type ∈ types, t.memo.get? (loc.child (step (index + i))) = some type) s := by
  induction nodes generalizing s index with
  | nil =>
    apply alike_pure
    exact ⟨⟨Frame.refl s, hs, fun _ hmem => nomatch hmem⟩, fun _ _ hnode => nomatch hnode⟩
  | cons node rest ih =>
    obtain ⟨hnode, hrest⟩ := List.forall_mem_cons.1 hnodes
    unfold intoAlternatives
    apply ((hc ⟨node, loc.child (step index)⟩ hint.weaken s hs hnode trivial).mono
      (fun _ _ => And.left) (fun _ _ _ => trivial)).next
    intro type t htype
    apply (ih (index + 1) hrest htype.valid).next
    rintro types u ⟨⟨hframe, hvalid, hhas⟩, htypes⟩
    apply alike_pure
    refine ⟨⟨htype.frame.trans hframe, hvalid, List.forall_mem_cons.2 ⟨?_, hhas⟩⟩, ?_⟩
    . exact hframe.graph.has _ (htype.has type (List.mem_singleton_self _))
    . intro i node' hnode'
      cases i with
      | zero => exact ⟨type, List.mem_cons_self .., hframe.memo htype.memo⟩
      | succ i =>
        obtain ⟨type', hmem, hmemo⟩ := htypes i node' hnode'
        rw [Nat.add_right_comm, Nat.add_assoc] at hmemo
        exact ⟨type', List.mem_cons_of_mem _ hmem, hmemo⟩

def Chosen (document : Json) (M : Moments) (place : Place) (_ : State) (h : Handle) (t : State) :
    Prop :=
  ∀ q, Place.Links document .alternative place q → ∃ k, t.memo.get? q.loc = some k ∧
    t.graph.Covers M (fun g value => t.Foresees place.loc g ∧ Accepts M g k value) h

theorem makes_chosen (document : Json) (M : Moments) : Makes document (Chosen document M) := by
  intro convert hc place hint s hs
  by_cases hchoice : ∃ q, Place.Links document .alternative place q
  . obtain ⟨q, hq⟩ := hchoice
    obtain ⟨schema, step, nodes, -, hschema, hform, -⟩ := Place.form_of_alternative hq
    obtain ⟨keyword, hget⟩ : ∃ keyword, schema.get? keyword = some (.array nodes) := by
      rcases alternatives?_eq_some (Schema.has_of_form hform).2.2.2 with ⟨-, hget⟩ | ⟨-, -, hget⟩
      . exact ⟨_, hget⟩
      . exact ⟨_, hget⟩
    rw [Schema.get?_of_ofJson hschema] at hget
    have harray := Json.hasUniqueKeys_of_field? hs.keys hget
    have hnodes : ∀ node ∈ nodes, node.hasUniqueKeys = true :=
      fun node => Json.hasUniqueKeys_of_array harray rfl
    apply returns_of_form hschema hform
    intro hint
    unfold intoForm intoChoice
    apply (gathers_alternatives hc step _ 0 nodes hnodes (hs.valid.begun place)).next
    rintro types t ⟨⟨-, hvalid, hhas⟩, htypes⟩
    apply (Unification.covering_unify M types _ place.loc t hvalid.sound hhas).mono
    . intro h u hadded q' hq'
      obtain ⟨schema', step', nodes', index, hschema', hform', hnode, hloc⟩ :=
        Place.form_of_alternative hq'
      cases Place.form_unique hschema hform hschema' hform'
      obtain ⟨k, hk, hmemo⟩ := htypes index q'.node hnode
      rw [Nat.zero_add, ← hloc, ← hadded.memo] at hmemo
      refine ⟨k, hmemo, hadded.covers.mono ?_⟩
      exact fun g _ value hvalue => ⟨hvalue.1, k, hk, hvalue.2⟩
    . exact fun _ _ _ => trivial
  . exact returns_of_forall fun h t q hq => absurd ⟨q, hq⟩ hchoice

end

def choosing (document : Json) (M : Moments) : Contract where
  pre place s := Addressed document place ∧ s.Settled document M ∧ s.Nested document ∧
    ∀ p, Addressed document p → Place.Links document .alternative p place → p.loc ∈ s.active
  post _ _ t := t.Settled document M
  fault _ _ _ _ := True

section

variable {document : Json} {M : Moments} {place p q : Place} {s t : State} {h : Handle}

theorem ne_of_free (hs : (choosing document M).pre place s) (hp : Addressed document p)
    (hkeys : document.hasUniqueKeys = true) (hq : Place.Links document .alternative p q)
    (hfree : p.loc ∉ s.active) : q.loc ≠ place.loc := by
  obtain ⟨hplace, -, -, hchoice⟩ := hs
  intro hloc
  obtain rfl := (hp.linked hkeys hq).unique hplace hloc
  exact hfree (hchoice p hp hq)

theorem choosing_record (hkeys : document.hasUniqueKeys = true)
    (hs : (choosing document M).pre place s) (hframe : Frame (s.begun place) t)
    (ht : t.Settled document M) : (t.recorded place.loc h).Settled document M := by
  intro p q hp hq hfree hknown
  have hactive : p.loc ∉ t.active := hfree
  rw [hframe.active, State.mem_active_begun, not_or] at hactive
  rw [State.knows_recorded] at hknown
  exact (ht p q hp hq hfree (hknown.resolve_left hactive.1)).recorded hactive.1
    (ne_of_free hs hp hkeys hq hactive.2)

theorem choosing_call (hkeys : document.hasUniqueKeys = true)
    (hs : (choosing document M).pre place s) (hframe : Frame (s.begun place) t) {edge : Edge}
    (hedge : edge ∈ place.edges document) (ht : t.Settled document M) :
    (choosing document M).pre edge.target t := by
  obtain ⟨hplace, -, hnested, hchoice⟩ := hs
  refine ⟨hplace.next hkeys hedge, ht, ?_, ?_⟩
  . intro p q hp hq hloc
    rw [hframe.active, State.mem_active_begun] at hloc ⊢
    rcases hloc with hloc | hloc
    . obtain rfl := (hp.linked hkeys hq).unique hplace hloc
      exact Or.inr (hchoice p hp hq)
    . exact Or.inr (hnested p q hp hq hloc)
  . intro p hp hq
    rw [hframe.active, State.mem_active_begun]
    exact Or.inl (Place.loc_of_alternative hq (hplace.hasUniqueKeys hkeys) hedge rfl).symm

theorem choosing_finish (hkeys : document.hasUniqueKeys = true)
    (hs : (choosing document M).pre place s) (hframe : Frame (s.begun place) t)
    (ht : t.Settled document M) (hmade : Chosen document M place s h t) :
    ((t.ended place.loc (place.loc ∈ s.active)).recorded place.loc h).Settled document M := by
  intro p q hp hq hfree hknown
  have hactive : p.loc ∉ s.active := by
    rw [← hframe.ended.active]
    exact hfree
  have hgraph := t.ended_graph place.loc (place.loc ∈ s.active)
  have hmemo := t.ended_memo place.loc (place.loc ∈ s.active)
  have hjournal := t.suffix_ended place.loc (place.loc ∈ s.active)
  by_cases hloc : p.loc = place.loc
  . -- This is the end of the last conversion of the choice.
    obtain rfl := hp.unique hs.1 hloc
    obtain ⟨k, hk, hcovers⟩ := hmade q hq
    refine ⟨h, k, ?_, ?_, ?_⟩
    . rw [State.get?_recorded, if_pos rfl]
    . rw [State.get?_recorded, if_neg (Place.alternative_ne hq).symm, hmemo]
      exact hk
    . apply State.Foresees.covers hcovers
      . show t.graph.Evolves (t.ended p.loc (p.loc ∈ s.active)).graph
        rw [hgraph]
        exact .refl _
      . exact hjournal.trans (List.suffix_cons _ _)
  . rw [State.knows_recorded, State.knows_ended] at hknown
    have hfree' : p.loc ∉ t.active := by
      rw [hframe.active, State.mem_active_begun, not_or]
      exact ⟨hloc, hactive⟩
    have hincludes := ht p q hp hq hfree' (hknown.resolve_left hloc)
    refine State.Includes.recorded ?_ hloc (ne_of_free hs hp hkeys hq hactive)
    exact hincludes.later (by rw [hmemo]) (by rw [hmemo]) (by rw [hgraph]; exact .refl _) hjournal

theorem choosing_step (hkeys : document.hasUniqueKeys = true) :
    Contract.Step document (choosing document M) (choosing document M) (Chosen document M)
      (fun _ _ _ _ t => t.Settled document M) where
  known hs _ := hs.2.1.later (fun _ => id) rfl (.refl _) (List.suffix_cons _ _)
  third _ _ _ _ := trivial
  start := by
    intro place s hs
    apply hs.pre.2.1.later
    . exact fun loc hloc => State.mem_active_begun.2 (Or.inr hloc)
    . exact s.begun_memo place
    . rw [s.begun_graph place]
      exact .refl _
    . exact s.suffix_begun place
  graph ht hg := ht.later (fun _ => id) rfl hg List.suffix_rfl
  merged ht := ht.later (fun _ => id) rfl (.refl _) (List.suffix_cons _ _)
  joined ht := ht.later (fun _ => id) rfl (.refl _) (List.suffix_cons _ _)
  record hs _ hframe ht := choosing_record hkeys hs.pre hframe ht
  call hs hframe hedge ht := choosing_call hkeys hs.pre hframe hedge ht
  resume _ _ _ _ _ _ hu := hu
  abort _ _ _ _ _ _ := trivial
  ordinary _ _ _ _ := trivial
  finish hs hframe ht hmade := choosing_finish hkeys hs.pre hframe ht hmade

theorem choosing_met (hkeys : document.hasUniqueKeys = true) (depth : Nat) :
    (choosing document M).Met document (convertWithin depth) (convertWithin depth) :=
  (choosing_step hkeys).met_all hkeys (makes_chosen document M) (fun _ _ _ => trivial) depth

end

end Descent

namespace Conversion

open Descent

variable {document : Json}

theorem includes_alternative (hkeys : document.hasUniqueKeys = true) {options : Options}
    {root : Handle} {t : State} (hrun : run document options = (.ok root, t)) {p q : Place}
    (hasked : .requested p.loc p.node ∈ t.journal) (hq : p.Links document .alternative q)
    (hforesees : t.Foresees p.loc t.graph) (M : Moments) :
    ∃ h k, t.memo.get? p.loc = some h ∧ t.memo.get? q.loc = some k ∧
      ∀ value, Accepts M t.graph k value → Accepts M t.graph h value := by
  have hchoosing := ends_run hkeys (choosing_met (M := M) hkeys) options
    ⟨Addressed.root, fun _ _ _ _ _ hknown => (nomatch hknown), fun _ _ _ _ hloc => (nomatch hloc),
      fun _ hp hq => absurd hq hp.not_alternative_root⟩
  obtain ⟨hanswered, hsettled⟩ := hchoosing.ok hrun
  obtain ⟨hp, hknown⟩ := known_of_requested hkeys hrun hasked
  have hfree : p.loc ∉ t.active := by
    rw [hanswered.frame.active]
    exact List.not_mem_nil
  obtain ⟨h, k, hh, hk, hcovers⟩ := hsettled p q hp hq hfree hknown
  refine ⟨h, k, hh, hk, ?_⟩
  intro value hvalue
  exact hcovers t.graph (.refl _) value ⟨hforesees, hvalue⟩

def branches : List Json :=
  [.object [
      ("type", .string "object"),
      ("additionalProperties", .object [("type", .string "integer")])],
    .object [
      ("type", .string "object"),
      ("additionalProperties", .object [("type", .string "string")])],
    .object [("type", .string "array"), ("items", .object [("$ref", .string "#")])]]

/--
A tree. Its map is still open when the types of the branches are unified, but the maps that are
joined then are not.
-/
def branchingDocument : Json :=
  .object [
    ("type", .string "object"),
    ("additionalProperties", .object [("anyOf", .array branches)])]

theorem includes_alternative_list : ∃ root t, run branchingDocument {} = (.ok root, t) ∧
    .requested ⟨[.root, .additionalProperties]⟩ (.object [("anyOf", .array branches)]) ∈ t.journal ∧
    t.Foresees ⟨[.root, .additionalProperties]⟩ t.graph ∧
    ∃ h k, t.memo.get? ⟨[.root, .additionalProperties]⟩ = some h ∧
      t.memo.get? ⟨[.root, .additionalProperties, .anyOf 2]⟩ = some k ∧
      ∀ value, Accepts .all t.graph k value → Accepts .all t.graph h value := by
  have hkeys : branchingDocument.hasUniqueKeys = true := by decide
  have hok : (run branchingDocument {}).1 = .ok ⟨0⟩ := by decide +kernel
  have hrun : run branchingDocument {} = (.ok ⟨0⟩, (run branchingDocument {}).2) := by rw [← hok]
  have hplace : Addressed branchingDocument
      ⟨.object [("anyOf", .array branches)], ⟨[.root, .additionalProperties]⟩⟩ :=
    ⟨⟨_, rfl, by decide⟩, rfl⟩
  have hasked : .requested ⟨[.root, .additionalProperties]⟩
      (.object [("anyOf", .array branches)]) ∈ (run branchingDocument {}).2.journal :=
    requested_of_any hkeys hplace (by decide +kernel)
  have hlink : Place.Links branchingDocument .alternative
      ⟨.object [("anyOf", .array branches)], ⟨[.root, .additionalProperties]⟩⟩
      ⟨.object [("type", .string "array"), ("items", .object [("$ref", .string "#")])],
        ⟨[.root, .additionalProperties, .anyOf 2]⟩⟩ :=
    ⟨_, List.mem_of_getElem? (i := 2) rfl, rfl, rfl⟩
  have hforesees : (run branchingDocument {}).2.Foresees ⟨[.root, .additionalProperties]⟩
      (run branchingDocument {}).2.graph := State.foresees_of_all (by decide +kernel)
  exact ⟨⟨0⟩, (run branchingDocument {}).2, hrun, hasked, hforesees,
    includes_alternative hkeys hrun hasked hlink hforesees _⟩

def selfBranches : List Json :=
  [.object [("$ref", .string "#")],
    .object [
      ("type", .string "object"),
      ("additionalProperties", .object [("type", .string "string")])]]

/--
An object of branches. Its map is read as its own values when it is joined with the other map, but
its values are the map that comes out of that.
-/
def selfReadDocument : Json :=
  .object [
    ("type", .string "object"),
    ("additionalProperties", .object [("oneOf", .array selfBranches)])]

theorem selfRead_lost : ∃ root t h k value, run selfReadDocument {} = (.ok root, t) ∧
    .requested ⟨[.root, .additionalProperties]⟩ (.object [("oneOf", .array selfBranches)]) ∈
      t.journal ∧
    Place.Links selfReadDocument .alternative
      ⟨.object [("oneOf", .array selfBranches)], ⟨[.root, .additionalProperties]⟩⟩
      ⟨.object [("$ref", .string "#")], ⟨[.root, .additionalProperties, .oneOf 0]⟩⟩ ∧
    t.memo.get? ⟨[.root, .additionalProperties]⟩ = some h ∧
    t.memo.get? ⟨[.root, .additionalProperties, .oneOf 0]⟩ = some k ∧
    Accepts .all t.graph k value ∧
    ¬Accepts .all t.graph h value := by
  have hkeys : selfReadDocument.hasUniqueKeys = true := by decide
  have hok : (run selfReadDocument {}).1 = .ok ⟨0⟩ := by decide +kernel
  have hrun : run selfReadDocument {} = (.ok ⟨0⟩, (run selfReadDocument {}).2) := by rw [← hok]
  have hplace : Addressed selfReadDocument
      ⟨.object [("oneOf", .array selfBranches)], ⟨[.root, .additionalProperties]⟩⟩ :=
    ⟨⟨_, rfl, by decide⟩, rfl⟩
  have hshape : ∀ i < 5, (run selfReadDocument {}).2.graph.shape? ⟨i⟩ =
      [.map (.filled ⟨4⟩), .map (.filled ⟨2⟩), .string, .union [⟨0⟩, ⟨2⟩],
        .map (.filled ⟨3⟩)][i]? := by
    decide +kernel
  refine ⟨⟨0⟩, (run selfReadDocument {}).2, ⟨4⟩, ⟨0⟩,
    .object [("a", .object [("b", .string "c")])], hrun,
    requested_of_any hkeys hplace (by decide +kernel),
    ⟨_, List.mem_of_getElem? (i := 0) rfl, rfl, rfl⟩,
    by decide +kernel, by decide +kernel, ?_, ?_⟩
  . refine accepts_of_fits (hshape 0 (by decide)) ⟨_, rfl, ?_⟩
    rintro name value (_ | ⟨_, ⟨⟩⟩)
    refine accepts_of_fits (hshape 4 (by decide)) ⟨_, rfl, ?_⟩
    rintro name value (_ | ⟨_, ⟨⟩⟩)
    refine accepts_of_fits (hshape 3 (by decide)) ⟨⟨2⟩, by simp, ?_⟩
    exact accepts_of_fits (hshape 2 (by decide)) ⟨_, rfl⟩
  . intro hvalue
    obtain ⟨fields, hfields, hinner⟩ := hvalue.fits (hshape 4 (by decide))
    cases hfields
    obtain ⟨member, hmember, hobject⟩ :=
      (hinner "a" _ (List.mem_singleton_self _)).fits (hshape 3 (by decide))
    rcases List.mem_cons.1 hmember with rfl | hmember
    . obtain ⟨fields, hfields, hinner⟩ := hobject.fits (hshape 0 (by decide))
      cases hfields
      -- The inner field would have to be an object.
      obtain ⟨fields, hfields, -⟩ :=
        (hinner "b" _ (List.mem_singleton_self _)).fits (hshape 4 (by decide))
      cases hfields
    . obtain rfl := List.mem_singleton.1 hmember
      obtain ⟨text, htext⟩ := hobject.fits (hshape 2 (by decide))
      cases htext

end Conversion

end SchemaGraph
