import SchemaGraph.Conversion.Session
import SchemaGraph.Proofs.Descent.Contract
import SchemaGraph.Proofs.Graph.Reachability

/-!
This module contains the normal form of graphs. Every graph has it that a session reaches, whether
its steps succeed or fail, because the invariant of graphs holds after each effect and not only
after a result.
-/

namespace SchemaGraph

def Shape.isObject : Shape → Bool
  | .record _ => true
  | .map _ => true
  | _ => false

theorem Shape.nested_of_isObject {shape : Shape} (h : shape.isObject = false) :
    shape.nested = shape.children := by
  cases shape with
  | record fields => cases h
  | map values => cases h
  | _ => rfl

def Shape.IsPlain (shape : Shape) : Prop :=
  shape ≠ .primitive .null ∧ shape ≠ .primitive .any ∧ (∀ inner, shape ≠ .nullable inner) ∧
    ∀ members, shape ≠ .union members

theorem Shape.isPlain_of_rank? {shape : Shape} {rank : Nat} (h : shape.rank? = some rank) :
    shape.IsPlain := by
  refine ⟨?_, ?_, ?_, ?_⟩
  . rintro rfl
    cases h
  . rintro rfl
    cases h
  . rintro inner rfl
    cases h
  . rintro members rfl
    cases h

theorem Ascends.pairwise {α : Type} {rank? : α → Option Nat} {low high : Nat} {as : List α}
    (h : Ascends rank? low high as) :
    as.Pairwise fun a b => ∃ i j, rank? a = some i ∧ rank? b = some j ∧ i < j := by
  induction as generalizing low with
  | nil => exact .nil
  | cons a rest ih =>
    obtain ⟨i, hi, -, -, hrest⟩ := h
    refine .cons ?_ (ih hrest)
    intro b hb
    obtain ⟨j, hj, hlt⟩ := hrest.exists_rank hb
    exact ⟨i, j, hi, hj, hlt⟩

namespace Graph

def Nests (g : Graph) (h child : Handle) : Prop :=
  ∃ shape, g.shape? h = some shape ∧ shape.isObject = false ∧ child ∈ shape.children

/--
The normal form of graphs. The members of a union are ordered by their ranks, which differ, so there
is at most one of each kind.
-/
structure Normal (g : Graph) : Prop where
  inside {h child} : g.Refers h child → g.Has child
  descends {h child} : g.Nests h child → child.index < h.index
  cycles h : ¬Relation.TransGen g.Nests h h
  opened {h depth} : h.index < depth → g.opened depth h = g.opened (h.index + 1) h
  several {h members} : g.shape? h = some (.union members) → 2 ≤ members.length ∧ members.Nodup
  ordered {h members} : g.shape? h = some (.union members) →
    members.Pairwise fun a b => ∃ i j, g.rank? a = some i ∧ g.rank? b = some j ∧ i < j
  plain {h members} : g.shape? h = some (.union members) →
    ∀ member ∈ members, ∃ shape, g.shape? member = some shape ∧ shape.IsPlain
  nullable {h inner} : g.shape? h = some (.nullable inner) →
    ∃ shape, g.shape? inner = some shape ∧ shape ≠ .primitive .null ∧ shape ≠ .primitive .any ∧
      ∀ inner', shape ≠ .nullable inner'

variable {g : Graph} {h : Handle}

theorem Sound.refers_has (hg : g.Sound) {child : Handle} (hchild : g.Refers h child) :
    g.Has child := by
  unfold Refers children at hchild
  split at hchild
  . cases hchild
  . next hshape => exact hg.inside hshape child hchild

theorem Sound.lt_of_nests (hg : g.Sound) {child : Handle} (hchild : g.Nests h child) :
    child.index < h.index := by
  obtain ⟨shape, hshape, hobject, hmem⟩ := hchild
  apply hg.descends hshape
  rwa [Shape.nested_of_isObject hobject]

theorem Sound.lt_of_transGen_nests (hg : g.Sound) {k : Handle}
    (hreaches : Relation.TransGen g.Nests h k) : k.index < h.index := by
  induction hreaches with
  | single hchild => exact hg.lt_of_nests hchild
  | tail _ hchild ih => exact Nat.lt_trans (hg.lt_of_nests hchild) ih

theorem Sound.opened_eq (hg : g.Sound) {depth depth' : Nat} (hdepth : h.index < depth)
    (hdepth' : h.index < depth') : g.opened depth h = g.opened depth' h := by
  induction depth generalizing h depth' with
  | zero => cases hdepth
  | succ depth ih =>
    cases depth' with
    | zero => cases hdepth'
    | succ depth' =>
      have hchild : ∀ {shape child}, g.shape? h = some shape → child ∈ shape.nested →
          g.opened depth child = g.opened depth' child := by
        intro shape child hshape hmem
        have hlt := hg.descends hshape child hmem
        exact ih (by omega) (by omega)
      cases hshape : g.shape? h with
      | none => simp only [opened, hshape]
      | some shape =>
        rw [opened_succ depth _ hshape, opened_succ depth' _ hshape]
        cases shape with
        | union members => exact List.flatMap_congr fun member hmem => hchild hshape hmem
        | nullable inner =>
          exact congrArg _ (hchild hshape (List.mem_singleton_self inner))
        | _ => rfl

theorem Sound.normal (hg : g.Sound) : g.Normal where
  inside hchild := hg.refers_has hchild
  descends hchild := hg.lt_of_nests hchild
  cycles h hcycle := Nat.lt_irrefl _ (hg.lt_of_transGen_nests hcycle)
  opened hdepth := hg.opened_eq hdepth (Nat.lt_succ_self _)
  several := by
    intro h members hshape
    obtain ⟨hmany, hascends⟩ := hg.allows hshape
    refine ⟨hmany, hascends.pairwise.imp ?_⟩
    rintro a b ⟨i, j, hi, hj, hlt⟩ rfl
    rw [hi] at hj
    cases hj
    exact Nat.lt_irrefl _ hlt
  ordered hshape := (hg.allows hshape).2.pairwise
  plain := by
    intro h members hshape member hmem
    obtain ⟨rank, hrank, -⟩ := (hg.allows hshape).2.exists_rank hmem
    obtain ⟨shape, hmember, hkind⟩ := Option.bind_eq_some_iff.1 hrank
    exact ⟨shape, hmember, Shape.isPlain_of_rank? hkind⟩
  nullable := by
    intro h inner hshape
    obtain ⟨shape, hinner, hnull⟩ := hg.allows hshape
    refine ⟨shape, hinner, ?_, ?_, ?_⟩
    . rintro rfl
      cases hnull
    . rintro rfl
      cases hnull
    . rintro inner' rfl
      cases hnull

instance (g : Graph) (h : Handle) : Decidable (g.Has h) :=
  inferInstanceAs (Decidable (h.index < g.size))

end Graph

def SessionStep.Proper (g : Graph) : SessionStep → Prop
  | .convert node _ _ => node.hasUniqueKeys = true
  | .unify types _ _ => ∀ h ∈ types, g.Has h
  | .nullable type _ => g.Has type

instance (g : Graph) (step : SessionStep) : Decidable (step.Proper g) :=
  match step with
  | .convert node _ _ => inferInstanceAs (Decidable (node.hasUniqueKeys = true))
  | .unify types _ _ => inferInstanceAs (Decidable (∀ h ∈ types, g.Has h))
  | .nullable type _ => inferInstanceAs (Decidable (g.Has type))

def State.Takes (s : State) : List SessionStep → Prop
  | [] => True
  | step :: rest => step.Proper s.graph ∧ (step.effect.run s).2.Takes rest

instance State.decidableTakes (s : State) : (steps : List SessionStep) → Decidable (s.Takes steps)
  | [] => isTrue trivial
  | step :: rest =>
    have := decidableTakes (step.effect.run s).2 rest
    inferInstanceAs (Decidable (step.Proper s.graph ∧ (step.effect.run s).2.Takes rest))

section

variable {document : Json} {s : State}

theorem State.Valid.step (hkeys : document.hasUniqueKeys = true) (hs : s.Valid document)
    {step : SessionStep} (hstep : step.Proper s.graph) :
    (step.effect.run s).2.Valid document := by
  cases step with
  | convert node loc hint =>
    have hconvert := Descent.ends_convert (Descent.frame_met hkeys) ⟨node, loc⟩ hint hs hstep
      trivial
    exact hconvert.final (fun _ _ h => h.1.valid) (fun _ _ h => h.1.2)
  | unify types hint loc =>
    have hunify := Unification.builds_unify hint loc hs.sound hstep
    exact hunify.final (fun _ _ h => hs.grown h.1) (fun _ _ h => hs.grown h.1)
  | nullable type hint =>
    obtain ⟨hbuilt, -⟩ := Graph.built_addNullable hs.sound hstep hint
    exact hs.grown (.build hbuilt)

theorem State.Valid.after (hkeys : document.hasUniqueKeys = true) (hs : s.Valid document)
    {steps : List SessionStep} (hsteps : s.Takes steps) : (s.after steps).Valid document := by
  induction steps generalizing s with
  | nil => exact hs
  | cons step rest ih =>
    obtain ⟨hstep, hrest⟩ := hsteps
    rw [after_cons]
    exact ih (hs.step hkeys hstep) hrest

end

namespace Conversion

theorem normal_after {document : Json} (hkeys : document.hasUniqueKeys = true)
    {steps : List SessionStep} (hsteps : (State.start document).Takes steps) :
    ((State.start document).after steps).graph.Normal :=
  ((State.valid_start document).after hkeys hsteps).sound.normal

def brokenDocument : Json :=
  .object [
    ("type", .string "object"),
    ("properties", .object [
      ("next", .object [("$ref", .string "#")]),
      ("size", .object [("type", .string "vast")])])]

/--
The conversion fails and leaves its record open, with a nullable around it. The nullable is unified
with an enum all the same, and the result with a nullable array.
-/
def brokenSession : List SessionStep :=
  [.convert brokenDocument .root (.inferred "Root"),
    .convert (.object [("enum", .array [.string "a", .string "b"])]) (Location.root.child .items)
      (.inferred "Case"),
    .unify [⟨1⟩, ⟨2⟩] (.inferred "Both") .root,
    .convert (.object [("type", .string "array")]) (Location.root.child (.oneOf 0))
      (.inferred "List"),
    .nullable ⟨6⟩ (.explicit "Maybe"),
    .unify [⟨4⟩, ⟨7⟩] (.inferred "All") .root]

theorem normal_after_broken : (State.start brokenDocument).Takes brokenSession ∧
    ((State.start brokenDocument).after brokenSession).graph.Normal := by
  have hsteps : (State.start brokenDocument).Takes brokenSession := by decide +kernel
  exact ⟨hsteps, normal_after (by decide) hsteps⟩

end Conversion

end SchemaGraph
