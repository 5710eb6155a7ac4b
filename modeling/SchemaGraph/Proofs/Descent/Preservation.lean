import SchemaGraph.Proofs.Descent.Termination
import SchemaGraph.Proofs.Descent.Translation

/-!
This module contains the proof that a conversion preserves meaning: the type of a document accepts
every value that the document admits.
-/

namespace SchemaGraph

section

variable {document : Json} {M : Moments} {O S S' : Pairing} {s t : State} {place : Place}
  {h : Handle}

theorem Kept.begun (hs : Kept document M O S s) (place : Place) :
    Kept document M O S (s.begun place) :=
  hs.congr (s.begun_document place) (s.begun_graph place) (s.begun_memo place)
    fun _ _ => State.joined_of_begun

theorem Kept.ended {loc : Location} {again : Prop} [Decidable again]
    (hs : Kept document M O S s) : Kept document M O S (s.ended loc again) :=
  hs.congr (s.ended_document loc again) (s.ended_graph loc again) (s.ended_memo loc again)
    fun _ _ => State.joined_of_ended

theorem kept_start (document : Json) (M : Moments) :
    Kept document M (fun _ _ => False) (fun _ _ => False) (.start document) where
  reads := rfl
  sound := Graph.sound_empty
  maps _ hshape := nomatch hshape
  joined hmem := nomatch hmem
  has := False.elim
  memo _ hget := nomatch hget
  means := False.elim

theorem Kept.granted (hs : Kept document M (fun _ _ => False) S s) {value : Json}
    (hvalue : Admits document M place value) : S.Granted M s.graph place value := by
  -- The values inside the value are granted already, so the value is in the reading of its place.
  induction hvalue with
  | intro A _ hreads ih =>
    intro h hS
    rcases hs.means hS with hO | hcovers
    . cases hO
    . exact hcovers _ (Graph.Evolves.refl _) _ (hreads.mono ih)

end

namespace Descent

open Effect

variable {document : Json} {M : Moments} {O S S' : Pairing} {s t : State} {place : Place}
  {h : Handle}

theorem shown_known (hs : Kept document M O S s) (hplace : Addressed document place)
    (hknown : s.memo.get? place.loc = some h) :
    Shown document M O S s (.admits place) h S (s.asked place) := by
  have hS := hs.memo hplace hknown
  refine ⟨⟨id, Graph.Evolves.refl _, hs.congr rfl rfl rfl fun _ _ => State.joined_of_asked⟩,
    hs.has hS, ?_⟩
  intro g _ value hgranted
  exact hgranted h hS

theorem shown_converted (hplace : Addressed document place) {again : Prop} [Decidable again]
    (hshown : Shown document M O S (s.begun place) (.reads document M place) h S' t) :
    Shown document M O S s (.admits place) h (fun q k => S' q k ∨ q = place ∧ k = h)
      ((t.ended place.loc again).recorded place.loc h) := by
  have hpaired : Kept document M O (fun q k => S' q k ∨ q = place ∧ k = h) t :=
    hshown.kept.pair hshown.has (Or.inr hshown.covers)
  have hgraph : ((t.ended place.loc again).recorded place.loc h).graph = t.graph :=
    t.ended_graph place.loc again
  refine ⟨⟨fun hS => Or.inl (hshown.pairs hS), ?_, ?_⟩, ?_, ?_⟩
  . rw [hgraph, ← s.begun_graph place]
    exact hshown.evolves
  . exact hpaired.ended.recorded hplace (Or.inr ⟨rfl, rfl⟩)
  . rw [hgraph]
    exact hshown.has
  . intro g _ value hgranted
    exact hgranted h (Or.inr ⟨rfl, rfl⟩)

theorem translating_convertWithin (hkeys : document.hasUniqueKeys = true) (htame : Tame document)
    (depth : Nat) : Translating document M (convertWithin depth) := by
  induction depth with
  | zero => exact fun _ _ _ _ _ _ _ => ⟨rfl, trivial⟩
  | succ depth ih =>
    intro place hint s O S hplace hs
    rw [convertWithin_succ]
    apply alike_visit
    . exact fun h hknown => ⟨S, shown_known hs hplace hknown⟩
    . exact fun _ _ _ => trivial
    . intro _ _
      apply (returns_intoSchema ih hkeys htame hplace hint (hs.begun place)).mono
      . rintro h t ⟨S', hshown⟩
        exact ⟨_, shown_converted hplace hshown⟩
      . exact fun _ _ => id

end Descent

namespace Conversion

open Descent

variable {document : Json}

theorem accepts_of_admits (hkeys : document.hasUniqueKeys = true) (htame : Tame document)
    {options : Options} {conversion : Conversion}
    (hrun : ofDocument document options = .ok conversion) (M : Moments) {value : Json}
    (hvalue : Admits document M ⟨document, .root⟩ value) :
    Accepts M conversion.graph conversion.root value := by
  have hconverted := translating_convertWithin (M := M) hkeys htame
    (depthBound document document) ⟨document, .root⟩ (.inferred options.rootName) _ _ _
    Addressed.root (kept_start document M)
  unfold ofDocument at hrun
  rw [run_eq] at hrun
  split at hrun
  . next root t hend =>
    obtain ⟨S, hshown⟩ := hconverted.ok hend
    cases hrun
    exact hshown.covers _ (Graph.Evolves.refl _) value (hshown.kept.granted hvalue)
  . cases hrun

def chainDocument : Json :=
  .object [
    ("oneOf", .array [
      .object [("type", .string "null")],
      .object [
        ("type", .string "object"),
        ("properties", .object [("next", .object [("$ref", .string "#")])])]])]

theorem accepts_of_admits_chain : ∃ conversion, ofDocument chainDocument {} = .ok conversion ∧
    Admits chainDocument .all ⟨chainDocument, .root⟩ (.object [("next", .object [("next", .null)])]) ∧
    Accepts .all conversion.graph conversion.root (.object [("next", .object [("next", .null)])]) := by
  have hkeys : chainDocument.hasUniqueKeys = true := by decide
  have htame : Tame chainDocument := Tame.of_all (by decide)
  -- Nothing depends on what the strings of a moment are.
  generalize Moments.all = M
  have hnull : Admits chainDocument M ⟨chainDocument, .root⟩ .null :=
    Place.admits_iff.2 ⟨0, _, rfl, Place.admits_iff.2 rfl⟩
  have hnext : ∀ rest, Admits chainDocument M ⟨chainDocument, .root⟩ rest →
      Admits chainDocument M ⟨chainDocument, .root⟩ (.object [("next", rest)]) := by
    intro rest hrest
    refine Place.admits_iff.2 ⟨1, _, rfl, Place.admits_iff.2 ⟨_, rfl, ?_, ?_⟩⟩
    . intro name value hmem
      cases List.mem_singleton.1 hmem
      exact ⟨_, rfl, Place.admits_iff.2 ⟨_, _, rfl, rfl, hrest⟩⟩
    . rintro _ ⟨⟩
  have hvalue := hnext _ (hnext _ hnull)
  cases hrun : ofDocument chainDocument {} with
  | error fault =>
    have hok : (ofDocument chainDocument {}).isOk = true := by decide +kernel
    rw [hrun] at hok
    cases hok
  | ok conversion =>
    exact ⟨conversion, rfl, hvalue, accepts_of_admits hkeys htame hrun M hvalue⟩

end Conversion

end SchemaGraph
