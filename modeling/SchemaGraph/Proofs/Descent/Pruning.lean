import SchemaGraph.Proofs.Descent.Likeness
import SchemaGraph.Proofs.Descent.Termination
import SchemaGraph.Proofs.Document.Pruning

/-!
This module contains the proof that fields which are not in force do not matter. A document and what
it is after deletions of such fields are converted in the same way, to the same graph with the same
names or to the same fault.
-/

namespace SchemaGraph

namespace Conversion

open Effect

variable {document document' : Json}

theorem run_eq_of_lt (hkeys : document.hasUniqueKeys = true) (options : Options) {depth : Nat}
    (hdepth : 2 * document.locations.length < depth) :
    run document options = (Descent.convertWithin depth document .root
      (.inferred options.rootName)).run (.start document) := by
  have hrun := Descent.alike_convertWithin hkeys (.inferred options.rootName)
    (lt_depthBound document)
  have hdeep := Descent.alike_convertWithin hkeys (.inferred options.rootName) hdepth
  rw [run_eq, ← hrun.1, hdeep.1]

theorem ofDocument_of_pruned (hkeys : document.hasUniqueKeys = true)
    (h : Pruned document document') (options : Options) :
    ofDocument document options = ofDocument document' options := by
  have hstart : (State.start document).Like True document document' (.start document') :=
    ⟨rfl, rfl, .refl _, rfl, rfl, rfl⟩
  have htied : ∀ place place', Place.Paired Pruned place place' →
      ∃ F, Place.Tied F Pruned document document' place place' :=
    fun _ _ hplace => ⟨_, Place.tied_of_pruned h hplace⟩
  -- The documents have different bounds, so both runs are taken at a depth that suffices for both.
  let depth := 2 * document.locations.length + 2 * document'.locations.length + 1
  have hdepth : 2 * document.locations.length < depth := by omega
  have hdepth' : 2 * document'.locations.length < depth := by omega
  have hrun : SameEnd (fun _ => State.Like True document document')
      (fun _ => State.Like True document document') (run document options)
      (run document' options) := by
    rw [run_eq_of_lt hkeys options hdepth, run_eq_of_lt (h.hasUniqueKeys hkeys) options hdepth']
    exact Descent.inPace_convertWithin htied depth _ _ _ _ _ [] _ _ h (fun _ => rfl) hstart
  unfold ofDocument
  generalize run document options = left at hrun ⊢
  generalize run document' options = right at hrun ⊢
  cases hrun with
  | result ht =>
    dsimp only
    rw [ht.graph.eq trivial]
  | fault _ => rfl

def shadowedDocument : Json :=
  .object [
    ("$ref", .string "#/definitions/item"),
    ("type", .integer 7),
    ("definitions", .object [("item", .object [
      ("type", .string "object"),
      ("oneOf", .bool true),
      ("properties", .object [
        ("kind", .object [("enum", .array [.string "a"]), ("properties", .null)]),
        ("size", .object [
          ("oneOf", .array [.object [("type", .string "integer"), ("comment", .null)]]),
          ("anyOf", .object [])])])])])]

def clearedDocument : Json :=
  .object [
    ("$ref", .string "#/definitions/item"),
    ("definitions", .object [("item", .object [
      ("type", .string "object"),
      ("properties", .object [
        ("kind", .object [("enum", .array [.string "a"])]),
        ("size", .object [("oneOf", .array [.object [("type", .string "integer")]])])])])])]

theorem pruned_shadowedDocument : Pruned shadowedDocument clearedDocument := by
  have hdefinitions := @PrunedValue.group .definitions
  have hproperties := @PrunedValue.group .properties
  have honeOf := @PrunedValue.nodes .oneOf
  refine .object (.keep (.same _ _) (.delete (by decide)
    (.keep (hdefinitions rfl (.cons ?item .nil)) (.nil _))))
  refine .object (.keep (.same _ _) (.delete (by decide)
    (.keep (hproperties rfl (.cons ?kind (.cons ?size .nil))) (.nil _))))
  case kind => exact .object (.keep (.same _ _) (.delete (by decide) (.nil _)))
  case size =>
    refine .object (.keep (honeOf rfl (.cons ?alternative .nil)) (.delete (by decide) (.nil _)))
    exact .object (.keep (.same _ _) (.delete (by decide) (.nil _)))

theorem ofDocument_of_pruned_shadowed :
    shadowedDocument.hasUniqueKeys = true ∧ Pruned shadowedDocument clearedDocument ∧
      ofDocument shadowedDocument {} = ofDocument clearedDocument {} := by
  have hkeys : shadowedDocument.hasUniqueKeys = true := by decide
  exact ⟨hkeys, pruned_shadowedDocument, ofDocument_of_pruned hkeys pruned_shadowedDocument {}⟩

end Conversion

end SchemaGraph
