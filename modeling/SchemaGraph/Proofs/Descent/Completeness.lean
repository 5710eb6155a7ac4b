import SchemaGraph.Proofs.Descent.Contract
import SchemaGraph.Proofs.Graph.Reachability

/-!
This module contains the proof that a conversion leaves nothing undone. Records and maps are handed
out before they are filled in, but the conversion that has opened one fills it in before it ends
with a result. So the graph of a document has all types that it speaks of and no open ones, and its
description tells the content of each.
-/

namespace SchemaGraph

structure Graph.Complete (g : Graph) : Prop where
  inside {h shape} : g.shape? h = some shape → ∀ child ∈ shape.children, g.Has child
  closed {h shape} : g.shape? h = some shape → shape.isOpen = false

def Json.IsTold (field : String × Json) : Prop :=
  field ≠ ("kind", .string "missing") ∧ field ≠ ("properties", .null) ∧ field ≠ ("values", .null)

def Json.IsWhole (node : Json) : Prop :=
  ∃ fields, node = .object fields ∧ ∀ field ∈ fields, Json.IsTold field

namespace Graph

variable {g g' : Graph} {h root : Handle} {shape : Shape}

theorem complete_of_built (hg : empty.Built g) : g.Complete := by
  refine ⟨fun hshape => hg.sound.inside hshape, ?_⟩
  intro h shape hshape
  rw [Bool.eq_false_iff]
  intro hopen
  -- An open node would have been there from the start.
  exact Nat.not_lt_zero _ (hg.pending h ⟨shape, hshape, hopen⟩)

theorem Complete.has_of_reaches (hg : g.Complete) (hroot : g.Has root)
    (hreaches : g.Reaches root h) : g.Has h := by
  induction hreaches with
  | refl => exact hroot
  | tail _ hchild _ =>
    unfold Refers children at hchild
    split at hchild
    . cases hchild
    . next hshape => exact hg.inside hshape _ hchild

theorem isTold_shapeFields (hclosed : shape.isOpen = false) :
    ∀ field ∈ shapeFields shape, Json.IsTold field := by
  cases shape with
  | primitive kind =>
    cases kind with
    | _ => simp [shapeFields, Json.IsTold, Primitive.text]
  | map values =>
    cases values with
    | pending => cases hclosed
    | filled values => simp [shapeFields, Json.IsTold, slotValue, handleValue]
  | record fields =>
    cases fields with
    | pending => cases hclosed
    | filled fields => simp [shapeFields, Json.IsTold, slotValue]
  | _ => simp [shapeFields, Json.IsTold]

theorem isTold_hintFields (hint : Option NameHint) :
    ∀ field ∈ hintFields hint, Json.IsTold field := by
  cases hint with
  | none => simp [hintFields]
  | some hint =>
    unfold hintFields
    split
    . simp [Json.IsTold]
    . simp [Json.IsTold]

theorem Complete.isWhole (hg : g.Complete) (hhas : g.Has h) : (g.nodeDescription h).IsWhole := by
  obtain ⟨shape, hshape⟩ := has_iff.1 hhas
  obtain ⟨node, hnode, rfl⟩ := Option.map_eq_some_iff.1 hshape
  unfold nodeDescription
  rw [hnode]
  refine ⟨_, rfl, ?_⟩
  intro field hfield
  rcases List.mem_append.1 hfield with hfield | hfield
  . exact isTold_shapeFields (hg.closed hshape) field hfield
  . exact isTold_hintFields node.hint field hfield

end Graph

namespace Conversion

open Descent

theorem complete_of_ok {document : Json} (hkeys : document.hasUniqueKeys = true)
    {options : Options} {conversion : Conversion}
    (hrun : ofDocument document options = .ok conversion) :
    conversion.graph.Has conversion.root ∧ conversion.graph.Complete ∧
      ∃ types, conversion.graph.description conversion.root =
          .object [("root", .string conversion.root.text), ("types", .object types)] ∧
        (∀ h, conversion.graph.Reaches conversion.root h →
          (h.text, conversion.graph.nodeDescription h) ∈ types) ∧
        ∀ name node, (name, node) ∈ types → node.IsWhole := by
  have hends := ends_run hkeys (C := .frame) (frame_met hkeys) options trivial
  unfold ofDocument at hrun
  split at hrun
  . next root t hend =>
    cases hrun
    obtain ⟨hanswered, -⟩ := hends.ok hend
    have hroot := hanswered.has root (List.mem_singleton_self _)
    have hcomplete := Graph.complete_of_built hanswered.toBuilt
    refine ⟨hroot, hcomplete, _, rfl, ?_, ?_⟩
    . intro h hreaches
      exact List.mem_map_of_mem (Graph.mem_reachable_iff.2 hreaches)
    . intro name node hmem
      obtain ⟨h, hh, heq⟩ := List.mem_map.1 hmem
      cases heq
      exact hcomplete.isWhole (hcomplete.has_of_reaches hroot (Graph.mem_reachable_iff.1 hh))
  . cases hrun

def treeDocument : Json :=
  .object [
    ("type", .array [.string "object", .string "null"]),
    ("additionalProperties", .object [("$ref", .string "#/definitions/list")]),
    ("definitions", .object [
      ("list", .object [
        ("type", .string "array"),
        ("items", .object [("$ref", .string "#")])])])]

theorem complete_of_ok_tree : ∃ conversion, ofDocument treeDocument {} = .ok conversion ∧
    conversion.graph.Has conversion.root ∧ conversion.graph.Complete ∧
      ∃ types, conversion.graph.description conversion.root =
          .object [("root", .string conversion.root.text), ("types", .object types)] ∧
        (∀ h, conversion.graph.Reaches conversion.root h →
          (h.text, conversion.graph.nodeDescription h) ∈ types) ∧
        ∀ name node, (name, node) ∈ types → node.IsWhole := by
  have hok : (ofDocument treeDocument {}).isOk = true := by decide +kernel
  cases hrun : ofDocument treeDocument {} with
  | error fault =>
    rw [hrun] at hok
    cases hok
  | ok conversion => exact ⟨conversion, rfl, complete_of_ok (by decide) hrun⟩

end Conversion

end SchemaGraph
