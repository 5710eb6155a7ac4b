import SchemaGraph.Proofs.Session.ConversionCalls
import SchemaGraph.Proofs.Session.UnificationCalls

/-!
This module contains the proof that a call makes the calls that are nested in it, and no others. The
calls that it makes are known by what it depends on, the nested ones by the schema that it converts
or the types that it unifies.
-/

namespace SchemaGraph

namespace Call

open Effect

inductive Encloses : State × Call → State × Call → Prop where
  | conversion {s : State} {depth : Nat} {place : Place} {hint : NameHint} {schema : Schema}
    {form : Form} {b : State × Call} (hunknown : ¬s.Knows place.loc)
    (hfree : ¬(place.loc ∈ s.active ∧ place.loc ∈ s.reentered))
    (hschema : Schema.ofJson place.node place.loc = .ok schema)
    (hform : schema.form place.loc = .ok form)
    (hb : OfForm depth schema place ((schema.title?.map NameHint.explicit).getD hint)
      (s.begun place) form b) :
    Encloses (s, .convert (depth + 1) place hint) b
  | unification {s : State} {depth : Nat} {types : List Handle} {hint : NameHint} {loc : Location}
    {b : State × Call} (hseveral : 2 ≤ types.length)
    (hclash : ¬(Leaves.records (s.graph.leaves types) ≠ [] ∧
      Leaves.maps (s.graph.leaves types) ≠ []))
    (hany : Leaves.has (s.graph.leaves types) .any = false)
    (hb : OfLeaves depth (s.graph.leaves types) hint loc s b) :
    Encloses (s, .unify (depth + 1) types hint loc) b

theorem consults_body (c : Call) (s : State) :
    Consults (fun ask => c.body ask) s (Encloses (s, c)) := by
  have hfew {depth : Nat} {types : List Handle} {hint : NameHint} {loc : Location}
      (h : types.length < 2) : ∀ b, ¬Encloses (s, .unify depth types hint loc) b := by
    intro b hb
    cases hb with
    | unification hseveral _ _ _ => exact absurd h (Nat.not_lt.2 hseveral)
  match c with
  | .convert 0 _ _ => exact consults_none _ nofun
  | .convert (depth + 1) place hint =>
    apply (consults_visit consults_schemaWith).congr
    intro b
    constructor
    . rintro ⟨hunknown, hfree, schema, form, hschema, hform, hb⟩
      exact .conversion hunknown hfree hschema hform hb
    . intro hb
      cases hb with
      | conversion hunknown hfree hschema hform hb =>
        exact ⟨hunknown, hfree, _, _, hschema, hform, hb⟩
  | .unify 0 [] _ _ => exact consults_none _ nofun
  | .unify 0 [_] _ _ => exact consults_none _ nofun
  | .unify 0 (_ :: _ :: _) _ _ => exact consults_none _ nofun
  | .unify (_ + 1) [] _ _ => exact consults_none _ (hfew Nat.zero_lt_two)
  | .unify (_ + 1) [_] _ _ => exact consults_none _ (hfew Nat.one_lt_two)
  | .unify (depth + 1) (h :: k :: hs) hint loc =>
    apply consults_state_bind
    apply (consults_combine (h :: k :: hs)).congr
    intro b
    constructor
    . rintro ⟨hclash, hany, hb⟩
      exact .unification (Nat.le_add_left _ _) hclash hany hb
    . intro hb
      cases hb with
      | unification _ hclash hany hb => exact ⟨hclash, hany, hb⟩

theorem makes_iff_encloses {a b : State × Call} : Makes a b ↔ Encloses a b := by
  classical
  obtain ⟨s, c⟩ := a
  constructor
  . rintro ⟨ask, hask, hdiffers⟩
    by_contra hb
    apply hdiffers
    rw [(consults_body c s).ignores b hb ask hask, body_effect]
  . intro hb
    -- Of two faults one is not the outcome anyway.
    obtain ⟨fault, hfault⟩ : ∃ fault, (c.effect.run s).1 ≠ .error fault := by
      by_cases h : (c.effect.run s).1 = .error .nothingToUnify
      . refine ⟨.recordMapConflict, ?_⟩
        rw [h]
        simp
      . exact ⟨_, h⟩
    let ask : Call → Effect Handle := fun d u =>
      if (u, d) = b then (.error fault, u) else d.effect.run u
    have hask : AnswersBut b ask := fun u d hne => if_neg hne
    refine ⟨ask, hask, ?_⟩
    intro heq
    apply hfault
    rw [← heq]
    exact (consults_body c s).stops b hb ask fault hask (congrArg Prod.fst (if_pos rfl))

end Call

end SchemaGraph
