import SchemaGraph.Proofs.Descent.Requests
import SchemaGraph.Proofs.Descent.Steadiness

/-!
This module contains the proof that a reference has the type of the place that it refers to. It gets
the type that its target has at that time. Later the target may get another type, but only one that
supersedes the earlier one, as long as that is so for the place at which the references end.
-/

namespace SchemaGraph

inductive Place.Denotes (document : Json) : Place → Place → Prop where
  | here {p : Place} (hp : ∀ q, ¬p.Links document .reference q) : Denotes document p p
  | next {p q e : Place} (hq : p.Links document .reference q) (he : Denotes document q e) :
    Denotes document p e

/--
The type of each reference was recorded for its target, and the type of the target supersedes it in
`g` if the types do so that were recorded for the place that is denoted.
-/
def State.Agrees (document : Json) (g : Graph) (s : State) : Prop :=
  ∀ p q, Addressed document p → p.Links document .reference q →
    ∀ h, (s.types p.loc).head? = some h →
      h ∈ s.types q.loc ∧ ∃ k, (s.types q.loc).head? = some k ∧
        (∃ e, q.Denotes document e) ∧
        ∀ e, q.Denotes document e → s.Steady g e.loc → g.Supersedes k h

section

variable {document : Json} {g : Graph} {s t : State} {p q q' place : Place} {h : Handle}

theorem Place.reference_unique (hq : p.Links document .reference q)
    (hq' : p.Links document .reference q') : q = q' := by
  obtain ⟨schema, text, reference, hschema, hform, hreference, htarget⟩ :=
    Place.form_of_reference hq
  obtain ⟨schema', text', reference', hschema', hform', hreference', htarget'⟩ :=
    Place.form_of_reference hq'
  cases Place.form_unique hschema hform hschema' hform'
  rw [hreference] at hreference'
  cases hreference'
  rw [htarget] at htarget'
  cases htarget'
  rfl

theorem Place.Opens.not_reference (hopens : p.Opens) : ¬p.Links document .reference q := by
  intro hq
  obtain ⟨schema, names, hschema, hform, -⟩ := hopens
  obtain ⟨schema', text, reference, hschema', hform', -⟩ := Place.form_of_reference hq
  cases Place.form_unique hschema hform hschema' hform'

theorem State.Agrees.congr (hs : s.Agrees document g) (htypes : ∀ loc, t.types loc = s.types loc) :
    t.Agrees document g := by
  intro p q hp hq h hh
  rw [htypes] at hh
  obtain ⟨hmem, k, hk, hdenotes, hsupersedes⟩ := hs p q hp hq h hh
  refine ⟨by rwa [htypes], k, by rwa [htypes], hdenotes, ?_⟩
  intro e he hsteady
  exact hsupersedes e he (hsteady.earlier (htypes e.loc ▸ List.suffix_rfl))

theorem State.Agrees.denotes (hs : s.Agrees document g) (hp : Addressed document p)
    (hh : (s.types p.loc).head? = some h) : ∃ e, p.Denotes document e := by
  by_cases hreference : ∃ q, p.Links document .reference q
  . obtain ⟨q, hq⟩ := hreference
    obtain ⟨-, k, -, ⟨e, he⟩, -⟩ := hs p q hp hq h hh
    exact ⟨e, .next hq he⟩
  . exact ⟨p, .here fun q hq => hreference ⟨q, hq⟩⟩

theorem State.Agrees.supersedes_recorded (hs : s.Agrees document g)
    (hplace : Addressed document place)
    (htarget : ∀ q, place.Links document .reference q → (s.types q.loc).head? = some h)
    {k : Handle} (hk : (s.types place.loc).head? = some k) {e : Place}
    (he : place.Denotes document e) (hsteady : (s.recorded place.loc h).Steady g e.loc) :
    g.Supersedes h k := by
  cases he with
  | here =>
    unfold State.Steady at hsteady
    rw [types_recorded, if_pos rfl] at hsteady
    exact List.rel_of_pairwise_cons hsteady (List.mem_of_head? hk)
  | @next _ q _ hq he =>
    obtain ⟨-, k', hk', -, hsupersedes⟩ := hs place q hplace hq k hk
    rw [htarget q hq] at hk'
    cases hk'
    exact hsupersedes e he (hsteady.earlier (types_suffix_recorded s place.loc e.loc h))

theorem State.Agrees.recorded (hkeys : document.hasUniqueKeys = true) (hs : s.Agrees document g)
    (hplace : Addressed document place)
    (htarget : ∀ q, place.Links document .reference q → (s.types q.loc).head? = some h) :
    (s.recorded place.loc h).Agrees document g := by
  intro p q hp hq h' hh'
  have hlater : ∀ {loc : Location} {k : Handle}, k ∈ s.types loc →
      k ∈ (s.recorded place.loc h).types loc :=
    fun hmem => (types_suffix_recorded s place.loc _ h).subset hmem
  by_cases hloc : p.loc = place.loc
  . -- The reference gets the type that its target has.
    obtain rfl := hp.unique hplace hloc
    rw [types_recorded, if_pos rfl] at hh'
    cases hh'
    have hq' := htarget q hq
    refine ⟨hlater (List.mem_of_head? hq'), h, ?_, hs.denotes (hp.linked hkeys hq) hq',
      fun e _ _ => .refl g h⟩
    rw [types_recorded]
    split
    . rfl
    . exact hq'
  . rw [types_recorded, if_neg (Ne.symm hloc)] at hh'
    obtain ⟨hmem, k, hk, hdenotes, hsupersedes⟩ := hs p q hp hq h' hh'
    have hearlier : ∀ e, q.Denotes document e → (s.recorded place.loc h).Steady g e.loc →
        g.Supersedes k h' := by
      intro e he hsteady
      exact hsupersedes e he (hsteady.earlier (types_suffix_recorded s place.loc e.loc h))
    by_cases hloc' : q.loc = place.loc
    . -- The target gets a type after the reference.
      obtain rfl := (hp.linked hkeys hq).unique hplace hloc'
      refine ⟨hlater hmem, h, ?_, hdenotes, ?_⟩
      . rw [types_recorded, if_pos rfl]
        rfl
      . intro e he hsteady
        exact (hs.supersedes_recorded hplace htarget hk he hsteady).trans (hearlier e he hsteady)
    . refine ⟨hlater hmem, k, ?_, hdenotes, hearlier⟩
      rw [types_recorded, if_neg (Ne.symm hloc')]
      exact hk

end

namespace Descent

open Effect

def Referred (document : Json) (place : Place) (_ : State) (h : Handle) (t : State) : Prop :=
  ∀ q, place.Links document .reference q → (t.types q.loc).head? = some h

def referring (document : Json) (g : Graph) : Contract where
  pre place s := Addressed document place ∧ s.Agrees document g
  post _ _ t := t.Agrees document g
  fault _ _ _ _ := True

section

variable {document : Json} {g : Graph}

theorem makes_referred (hkeys : document.hasUniqueKeys = true) :
    Makes document (Referred document) := by
  intro convert hc place hint s hs
  by_cases hreference : ∃ q, place.Links document .reference q
  . obtain ⟨q, hq⟩ := hreference
    obtain ⟨schema, text, reference, hschema, hform, htext, htarget⟩ := Place.form_of_reference hq
    have hnode := hq.hasUniqueKeys hkeys hs.keys
    have hvalid := hs.valid.begun place
    apply returns_of_form hschema hform
    intro hint
    unfold intoForm intoReference
    dsimp only
    rw [htext]
    apply alike_check_bind
    . exact fun _ _ => trivial
    rintro reference ⟨⟩
    apply alike_state_bind
    rw [hvalid.document, htarget]
    apply alike_check_bind
    . exact fun _ _ => trivial
    rintro target ⟨⟩
    apply (hc q _ _ hvalid hnode trivial).mono
    . rintro h t ⟨hanswered, -⟩ q' hq'
      obtain rfl := Place.reference_unique hq hq'
      rw [← hanswered.valid.latest]
      exact hanswered.memo
    . exact fun _ _ _ => trivial
  . exact returns_of_forall fun h t q hq => absurd ⟨q, hq⟩ hreference

theorem referring_step (hkeys : document.hasUniqueKeys = true) :
    Contract.Step document (referring document g) (referring document g) (Referred document)
      (fun _ _ _ _ t => t.Agrees document g) where
  known {place s} hs _ := hs.2.congr (s.types_asked place)
  third _ _ _ _ := trivial
  start {place s} hs := hs.pre.2.congr (s.types_begun place)
  graph ht _ := ht.congr fun _ => rfl
  merged ht := ht.congr fun _ => rfl
  joined ht := ht.congr fun _ => rfl
  record hs hopens _ ht :=
    ht.recorded hkeys hs.pre.1 fun _ hq => absurd hq hopens.not_reference
  call hs _ hedge ht := ⟨hs.pre.1.next hkeys hedge, ht⟩
  resume _ _ _ _ _ _ hu := hu
  abort _ _ _ _ _ _ := trivial
  ordinary _ _ _ _ := trivial
  finish := by
    intro place s covered t h hs _ ht hreferred
    have htypes := fun loc => t.types_ended place.loc loc (place.loc ∈ s.active)
    apply (ht.congr htypes).recorded hkeys hs.pre.1
    intro q hq
    rw [htypes]
    exact hreferred q hq

theorem referring_met (hkeys : document.hasUniqueKeys = true) (depth : Nat) :
    (referring document g).Met document (convertWithin depth) (convertWithin depth) :=
  (referring_step hkeys).met_all hkeys (makes_referred hkeys) (fun _ _ _ => trivial) depth

end

end Descent

namespace Conversion

open Descent

variable {document : Json}

theorem type_of_reference (hkeys : document.hasUniqueKeys = true) {options : Options}
    {root : Handle} {t : State} (hrun : run document options = (.ok root, t)) {p q : Place}
    (hasked : .requested p.loc p.node ∈ t.journal) (hq : p.Links document .reference q) :
    ∃ h k, t.memo.get? p.loc = some h ∧ t.memo.get? q.loc = some k ∧ h ∈ t.types q.loc ∧
      (t.graph.Supersedes k h ∨
        ∃ e, q.Denotes document e ∧ t.Reenters e.loc ∧ ¬t.Steady t.graph e.loc) := by
  have hreferring := ends_run hkeys (referring_met (g := t.graph) hkeys) options
    ⟨Addressed.root, fun _ _ _ _ _ hh => nomatch hh⟩
  have hsteadying := ends_run hkeys (steadying_met hkeys) options fun _ _ => List.Pairwise.nil
  obtain ⟨hanswered, hagrees⟩ := hreferring.ok hrun
  obtain ⟨-, hquiet, -⟩ := hsteadying.ok hrun
  obtain ⟨hp, hknown⟩ := known_of_requested hkeys hrun hasked
  obtain ⟨h, hh⟩ := State.knows_iff.1 hknown
  have htype : (t.types p.loc).head? = some h := by
    rw [← hanswered.valid.latest]
    exact hh
  obtain ⟨hmem, k, hk, ⟨e, he⟩, hsupersedes⟩ := hagrees p q hp hq h htype
  refine ⟨h, k, hh, (hanswered.valid.latest q.loc).trans hk, hmem, ?_⟩
  by_cases hsteady : t.Steady t.graph e.loc
  . exact Or.inl (hsupersedes e he hsteady)
  . refine Or.inr ⟨e, he, ?_, hsteady⟩
    by_cases hreenters : t.Reenters e.loc
    . exact hreenters
    . exact absurd (hquiet e.loc hreenters) hsteady

def nestedDocument : Json :=
  .object [
    ("type", .array [.string "object", .string "null"]),
    ("properties", .object [("inner", .object [("$ref", .string "#")])])]

theorem type_of_reference_nested : ∃ root t, run nestedDocument {} = (.ok root, t) ∧
    .requested ⟨[.root, .property "inner"]⟩ (.object [("$ref", .string "#")]) ∈ t.journal ∧
    Place.Links nestedDocument .reference
      ⟨.object [("$ref", .string "#")], ⟨[.root, .property "inner"]⟩⟩ ⟨nestedDocument, .root⟩ ∧
    ∃ h k, t.memo.get? ⟨[.root, .property "inner"]⟩ = some h ∧ t.memo.get? .root = some k ∧
      h ∈ t.types .root ∧ (t.graph.Supersedes k h ∨
        ∃ e, Place.Denotes nestedDocument ⟨nestedDocument, .root⟩ e ∧ t.Reenters e.loc ∧
          ¬t.Steady t.graph e.loc) := by
  have hkeys : nestedDocument.hasUniqueKeys = true := by decide
  have hok : (run nestedDocument {}).1 = .ok ⟨1⟩ := by decide +kernel
  have hrun : run nestedDocument {} = (.ok ⟨1⟩, (run nestedDocument {}).2) := by rw [← hok]
  have hplace : Addressed nestedDocument
      ⟨.object [("$ref", .string "#")], ⟨[.root, .property "inner"]⟩⟩ := ⟨⟨_, rfl, by decide⟩, rfl⟩
  have hasked : .requested ⟨[.root, .property "inner"]⟩ (.object [("$ref", .string "#")]) ∈
      (run nestedDocument {}).2.journal := requested_of_any hkeys hplace (by decide +kernel)
  have hlink : Place.Links nestedDocument .reference
      ⟨.object [("$ref", .string "#")], ⟨[.root, .property "inner"]⟩⟩ ⟨nestedDocument, .root⟩ :=
    ⟨_, List.mem_of_getElem? (i := 0) rfl, rfl, rfl⟩
  have hresult := type_of_reference hkeys hrun hasked hlink
  exact ⟨⟨1⟩, (run nestedDocument {}).2, hrun, hasked, hlink, hresult⟩

/--
An object of such objects or an object of strings. The conversion of the document begins again
inside itself, and both times the maps of the two branches are joined.
-/
def twiceJoinedDocument : Json :=
  .object [
    ("oneOf", .array [
      .object [
        ("type", .string "object"),
        ("additionalProperties", .object [("$ref", .string "#")])],
      .object [
        ("type", .string "object"),
        ("additionalProperties", .object [("type", .string "string")])]])]

theorem twiceJoined_disagrees : ∃ root t h k, run twiceJoinedDocument {} = (.ok root, t) ∧
    .requested ⟨[.root, .oneOf 0, .additionalProperties]⟩ (.object [("$ref", .string "#")]) ∈
      t.journal ∧
    Place.Links twiceJoinedDocument .reference
      ⟨.object [("$ref", .string "#")], ⟨[.root, .oneOf 0, .additionalProperties]⟩⟩
      ⟨twiceJoinedDocument, .root⟩ ∧
    t.memo.get? ⟨[.root, .oneOf 0, .additionalProperties]⟩ = some h ∧
    t.memo.get? .root = some k ∧ ¬t.graph.Supersedes k h := by
  have hkeys : twiceJoinedDocument.hasUniqueKeys = true := by decide
  have hok : (run twiceJoinedDocument {}).1 = .ok ⟨6⟩ := by decide +kernel
  have hrun : run twiceJoinedDocument {} = (.ok ⟨6⟩, (run twiceJoinedDocument {}).2) := by
    rw [← hok]
  have hplace : Addressed twiceJoinedDocument
      ⟨.object [("$ref", .string "#")], ⟨[.root, .oneOf 0, .additionalProperties]⟩⟩ :=
    ⟨⟨_, rfl, by decide⟩, rfl⟩
  have hmap : (run twiceJoinedDocument {}).2.graph.rank? ⟨6⟩ = some 0 := by decide +kernel
  refine ⟨⟨6⟩, (run twiceJoinedDocument {}).2, ⟨4⟩, ⟨6⟩, hrun,
    requested_of_any hkeys hplace (by decide +kernel),
    ⟨_, List.mem_of_getElem? (i := 0) rfl, rfl, rfl⟩, by decide +kernel, by decide +kernel, ?_⟩
  rintro (heq | ⟨-, hwraps⟩)
  . cases heq
  . -- A map wraps nothing but itself.
    cases hwraps.eq_of_rank? hmap

end Conversion

end SchemaGraph
