import SchemaGraph.Proofs.Session.Consultation

/-!
This module contains the calls that are nested in a conversion, by the form of the schema. It asks
for what the schema refers to, for the fields of a record, the values of a map, the items of an
array and the alternatives of a choice, and then for the unification of several types. Each call is
made in the state that the ones before it have left, and only if they have ended with results.
-/

namespace SchemaGraph

namespace Descent

open Effect

def intoField (convert : Convert) (required : List String) (loc : Location)
    (field : String × Json) : Effect (String × Handle) := do
  let hint := NameHint.inferred field.1
  let declared ← convert field.2 (loc.child (.property field.1)) hint
  let type ←
    if field.1 ∈ required then pure declared else build fun g => g.addNullable declared hint
  return (field.1, type)

theorem intoFields_eq_collect (convert : Convert) (required : List String) (loc : Location)
    (fields : List (String × Json)) :
    intoFields convert required loc fields =
      collect (fields.map (intoField convert required loc)) := by
  induction fields with
  | nil => rfl
  | cons field rest ih =>
    simp only [intoFields, List.map_cons, collect, intoField, bind_assoc, ih]
    refine bind_congr fun declared => ?_
    split <;> simp only [bind_assoc, pure_bind]

theorem intoAlternatives_eq_collect (convert : Convert) (step : Nat → Step) (loc : Location)
    (hint : NameHint) (index : Nat) (nodes : List Json) :
    intoAlternatives convert step loc hint index nodes =
      collect ((nodes.zipIdx index).map fun node =>
        convert node.1 (loc.child (step node.2)) hint.weaken) := by
  induction nodes generalizing index with
  | nil => rfl
  | cons node rest ih =>
    simp only [intoAlternatives, List.zipIdx_cons, List.map_cons, collect, ih]

end Descent

namespace Call

open Effect Descent

variable {s : State} {P : State × Call → Prop}

def opening (s : State) (loc : Location) (node : Node) : State :=
  State.recorded { s with graph := (s.graph.push node).2 } loc (s.graph.push node).1

inductive OfObject (depth : Nat) (schema : Schema) (loc : Location) (hint : NameHint) (s : State) :
    State × Call → Prop where
  | field {before after : List (String × Json)} {field : String × Json} {required : List String}
    {declared : Fields} {t : State}
    (hproperties : schema.properties? loc = .ok (some (before ++ field :: after)))
    (hrequired : schema.required loc = .ok required)
    (hbefore : (intoFields (convertWithin depth) required loc before).run
      (opening s loc ⟨.record .pending, some hint⟩) = (.ok declared, t)) :
    OfObject depth schema loc hint s
      (t, .convert depth ⟨field.2, loc.child (.property field.1)⟩ (.inferred field.1))
  | values {node : Json} (hproperties : schema.properties? loc = .ok none)
    (hvalues : schema.additional? = some (.schema node)) :
    OfObject depth schema loc hint s
      (opening s loc ⟨.map .pending, none⟩,
        .convert depth ⟨node, loc.child .additionalProperties⟩ hint.singular)

inductive OfName (depth : Nat) (schema : Schema) (loc : Location) (hint : NameHint) (s : State)
    (name : String) : State × Call → Prop where
  | object {b : State × Call} (hname : name = "object")
    (hobject : OfObject depth schema loc hint s b) : OfName depth schema loc hint s name b
  | items {node : Json} (hname : name = "array") (hitems : schema.items? loc = .ok (some node)) :
    OfName depth schema loc hint s name
      (s, .convert depth ⟨node, loc.child .items⟩ hint.singular)

variable {depth : Nat} {schema : Schema} {loc : Location} {hint : NameHint}

theorem consults_intoFields (required : List String) (fields : List (String × Json)) :
    Consults (fun ask => intoFields (converting ask depth) required loc fields) s fun b =>
      ∃ before field after declared t, fields = before ++ field :: after ∧
        (intoFields (convertWithin depth) required loc before).run s = (.ok declared, t) ∧
        b = (t, .convert depth ⟨field.2, loc.child (.property field.1)⟩ (.inferred field.1)) := by
  simp only [intoFields_eq_collect]
  apply consults_collect
  intro field t
  unfold intoField
  exact (consults_call _).then _

theorem consults_intoRecord {properties : List (String × Json)}
    (hproperties : schema.properties? loc = .ok (some properties)) :
    Consults (fun ask => intoRecord (converting ask depth) schema properties loc hint) s
      (OfObject depth schema loc hint s) := by
  unfold intoRecord
  apply consults_check_bind
  . intro fault hfault b hb
    cases hb with
    | field _ hrequired _ => cases hfault.symm.trans hrequired
    | values hnone _ => cases hproperties.symm.trans hnone
  . intro required hrequired
    apply consults_build_bind
    apply consults_change_bind
    apply ((consults_intoFields required properties).then _).congr
    intro b
    constructor
    . rintro ⟨before, field, after, declared, t, rfl, hbefore, rfl⟩
      exact .field hproperties hrequired hbefore
    . intro hb
      cases hb with
      | field hsome hrequired' hbefore =>
        cases hproperties.symm.trans hsome
        cases hrequired.symm.trans hrequired'
        exact ⟨_, _, _, _, _, rfl, hbefore, rfl⟩
      | values hnone _ => cases hproperties.symm.trans hnone

theorem consults_intoMap {node : Json} (hproperties : schema.properties? loc = .ok none)
    (hvalues : schema.additional? = some (.schema node)) :
    Consults (fun ask => intoMap (converting ask depth) node loc hint) s
      (OfObject depth schema loc hint s) := by
  unfold intoMap
  apply consults_build_bind
  apply consults_change_bind
  apply ((consults_call _).then _).congr
  intro b
  constructor
  . rintro rfl
    exact .values hproperties hvalues
  . intro hb
    cases hb with
    | field hsome _ _ => cases hproperties.symm.trans hsome
    | values _ hvalues' =>
      cases hvalues.symm.trans hvalues'
      rfl

theorem consults_intoObject :
    Consults (fun ask => intoObject (converting ask depth) schema loc hint) s
      (OfObject depth schema loc hint s) := by
  unfold intoObject
  apply consults_check_bind
  . intro fault hfault b hb
    cases hb with
    | field hsome _ _ => cases hfault.symm.trans hsome
    | values hnone _ => cases hfault.symm.trans hnone
  . intro properties? hproperties
    cases properties? with
    | some properties => exact consults_intoRecord hproperties
    | none =>
      have hplain (h : ∀ node, schema.additional? ≠ some (.schema node)) :
          ∀ b, ¬OfObject depth schema loc hint s b := by
        intro b hb
        cases hb with
        | field hsome _ _ => cases hproperties.symm.trans hsome
        | values _ hvalues => exact h _ hvalues
      dsimp only
      cases hadditional : schema.additional? with
      | none => exact consults_none _ (hplain (by simp [hadditional]))
      | some additional =>
        cases additional with
        | allowed => exact consults_none _ (hplain (by simp [hadditional]))
        | forbidden => exact consults_none _ (hplain (by simp [hadditional]))
        | schema node => exact consults_intoMap hproperties hadditional

theorem consults_intoArray :
    Consults (fun ask => intoArray (converting ask depth) schema loc hint) s fun b =>
      ∃ node, schema.items? loc = .ok (some node) ∧
        b = (s, .convert depth ⟨node, loc.child .items⟩ hint.singular) := by
  unfold intoArray
  apply consults_check_bind
  . rintro fault hfault b ⟨node, hitems, -⟩
    cases hfault.symm.trans hitems
  . intro items? hitems
    rw [hitems]
    cases items? with
    | none => exact consults_none _ (by simp)
    | some node => exact ((consults_call _).then _).congr (by simp)

theorem consults_intoNamed (name : String) :
    Consults (fun ask => intoNamed (converting ask depth) schema loc hint name) s
      (OfName depth schema loc hint s name) := by
  have hplain {name : String} (hobject : name ≠ "object") (harray : name ≠ "array") :
      ∀ b, ¬OfName depth schema loc hint s name b := by
    intro b hb
    cases hb with
    | object hname _ => exact hobject hname
    | items hname _ => exact harray hname
  unfold intoNamed
  split
  . apply consults_intoObject.congr
    refine fun b => ⟨.object rfl, fun hb => ?_⟩
    cases hb with
    | object _ hobject => exact hobject
    | items hname _ => exact absurd hname (by decide)
  . apply consults_intoArray.congr
    intro b
    constructor
    . rintro ⟨node, hitems, rfl⟩
      exact .items rfl hitems
    . intro hb
      cases hb with
      | object hname _ => exact absurd hname (by decide)
      | items _ hitems => exact ⟨_, hitems, rfl⟩
  . exact consults_none _ (hplain (by decide) (by decide))
  . exact consults_none _ (hplain (by decide) (by decide))
  . exact consults_none _ (hplain (by decide) (by decide))
  . exact consults_none _ (hplain (by decide) (by decide))
  . exact consults_none _ (hplain (by decide) (by decide))
  . next hobject harray _ _ _ _ _ => exact consults_none _ (hplain hobject harray)

inductive OfForm (depth : Nat) (schema : Schema) (place : Place) (hint : NameHint) (s : State) :
    Form → State × Call → Prop where
  | reference {text : String} {reference : Reference} {target : Place}
    (hreference : Reference.ofText text = .ok reference)
    (htarget : place.resolve s.document reference.target = .ok target) :
    OfForm depth schema place hint s (.reference text)
      (s, .convert depth target (if hint.isInferred then .explicit reference.name else hint))
  | name {names before after : List String} {name : String} {types : List Handle} {t : State}
    {b : State × Call} (hnames : distinct names = before ++ name :: after)
    (hbefore : (collect (before.map fun name =>
      intoNamed (convertWithin depth) schema place.loc hint name)).run s = (.ok types, t))
    (hname : OfName depth schema place.loc hint t name b) :
    OfForm depth schema place hint s (.named names) b
  | names {names : List String} {types : List Handle} {t : State}
    (hseveral : ∀ name, distinct names ≠ [name])
    (hnames : (collect ((distinct names).map fun name =>
      intoNamed (convertWithin depth) schema place.loc hint name)).run s = (.ok types, t)) :
    OfForm depth schema place hint s (.named names)
      (t, .unify t.graph.unificationBound types hint place.loc)
  | alternative {step : Nat → Step} {before after : List Json} {node : Json}
    {types : List Handle} {t : State}
    (hbefore : (intoAlternatives (convertWithin depth) step place.loc hint 0 before).run s =
      (.ok types, t)) :
    OfForm depth schema place hint s (.choice step (before ++ node :: after))
      (t, .convert depth ⟨node, place.loc.child (step before.length)⟩ hint.weaken)
  | alternatives {step : Nat → Step} {nodes : List Json} {types : List Handle} {t : State}
    (hnodes : (intoAlternatives (convertWithin depth) step place.loc hint 0 nodes).run s =
      (.ok types, t)) :
    OfForm depth schema place hint s (.choice step nodes)
      (t, .unify t.graph.unificationBound types hint place.loc)

variable {place : Place}

theorem consults_unifying (types : List Handle) :
    Consults (fun ask => unifying ask types hint loc) s fun b =>
      b = (s, .unify s.graph.unificationBound types hint loc) :=
  consults_state_bind (consults_call _)

theorem consults_intoReference (text : String) :
    Consults (fun ask => intoReference (converting ask depth) text place hint) s
      (OfForm depth schema place hint s (.reference text)) := by
  unfold intoReference
  apply consults_check_bind
  . intro fault hfault b hb
    cases hb with
    | reference hreference _ => cases hfault.symm.trans hreference
  . intro reference hreference
    apply consults_state_bind
    apply consults_check_bind
    . intro fault hfault b hb
      cases hb with
      | reference hreference' htarget =>
        cases hreference.symm.trans hreference'
        cases hfault.symm.trans htarget
    . intro target htarget
      apply (consults_call _).congr
      intro b
      constructor
      . rintro rfl
        exact .reference hreference htarget
      . intro hb
        cases hb with
        | reference hreference' htarget' =>
          cases hreference.symm.trans hreference'
          cases htarget.symm.trans htarget'
          rfl

theorem consults_namesWith (names : List String) :
    Consults (fun ask =>
        namesWith (converting ask depth) (unifying ask) schema place.loc hint names) s
      (OfForm depth schema place hint s (.named names)) := by
  unfold namesWith
  split
  . next name hnames =>
    apply (consults_intoNamed name).congr
    have hnames' : distinct names = [] ++ name :: [] := hnames
    refine fun b => ⟨.name hnames' rfl, fun hb => ?_⟩
    cases hb with
    | @name _ before after _ _ _ _ hsplit hbefore hname =>
      rw [hnames] at hsplit
      obtain ⟨rfl, -⟩ | ⟨-, hsplit⟩ := List.singleton_eq_append_iff.1 hsplit
      . cases hsplit
        cases hbefore
        exact hname
      . cases hsplit
    | names hseveral _ => exact absurd hnames (hseveral name)
  . next hseveral =>
    apply ((consults_collect (fun name t => consults_intoNamed name) (distinct names)).bind
      fun types t _ => consults_unifying types).congr
    intro b
    constructor
    . rintro (⟨before, name, after, types, t, hnames, hbefore, hb⟩ | ⟨types, t, hall, rfl⟩)
      . exact .name hnames hbefore hb
      . exact .names hseveral hall
    . intro hb
      cases hb with
      | name hnames hbefore hname => exact .inl ⟨_, _, _, _, _, hnames, hbefore, hname⟩
      | names _ hall => exact .inr ⟨_, _, hall, rfl⟩

theorem consults_intoAlternatives (step : Nat → Step) (nodes : List Json) :
    Consults (fun ask => intoAlternatives (converting ask depth) step loc hint 0 nodes) s fun b =>
      ∃ before node after types t, nodes = before ++ node :: after ∧
        (intoAlternatives (convertWithin depth) step loc hint 0 before).run s = (.ok types, t) ∧
        b = (t, .convert depth ⟨node, loc.child (step before.length)⟩ hint.weaken) := by
  simp only [intoAlternatives_eq_collect]
  apply (consults_collect (fun node t => consults_call _) (nodes.zipIdx 0)).congr
  intro b
  constructor
  . rintro ⟨before, node, after, types, t, hsplit, hbefore, rfl⟩
    obtain ⟨before, rest, rfl, rfl, hrest⟩ := List.zipIdx_eq_append_iff.1 hsplit
    obtain ⟨node, after, rfl, rfl, -⟩ := List.zipIdx_eq_cons_iff.1 hrest.symm
    exact ⟨before, node, after, types, t, rfl, hbefore, by simp⟩
  . rintro ⟨before, node, after, types, t, rfl, hbefore, rfl⟩
    refine ⟨_, (node, before.length), after.zipIdx (before.length + 1), types, t, ?_, hbefore, rfl⟩
    rw [List.zipIdx_append, List.zipIdx_cons, Nat.zero_add]

theorem consults_choiceWith (step : Nat → Step) (nodes : List Json) :
    Consults (fun ask =>
        choiceWith (converting ask depth) (unifying ask) step place.loc hint nodes) s
      (OfForm depth schema place hint s (.choice step nodes)) := by
  unfold choiceWith
  apply ((consults_intoAlternatives step nodes).bind fun types t _ => consults_unifying types).congr
  intro b
  constructor
  . rintro (⟨before, node, after, types, t, rfl, hbefore, rfl⟩ | ⟨types, t, hall, rfl⟩)
    . exact .alternative hbefore
    . exact .alternatives hall
  . intro hb
    cases hb with
    | alternative hbefore => exact .inl ⟨_, _, _, _, _, rfl, hbefore, rfl⟩
    | alternatives hall => exact .inr ⟨_, _, hall, rfl⟩

theorem consults_formWith (form : Form) :
    Consults (fun ask => formWith (converting ask depth) (unifying ask) schema place hint form) s
      (OfForm depth schema place hint s form) := by
  cases form with
  | reference text => exact consults_intoReference text
  | named names => exact consults_namesWith names
  | choice step nodes => exact consults_choiceWith step nodes
  | _ => exact consults_none _ nofun

theorem consults_schemaWith :
    Consults (fun ask => schemaWith (converting ask depth) (unifying ask) place hint) s fun b =>
      ∃ schema form, Schema.ofJson place.node place.loc = .ok schema ∧
        schema.form place.loc = .ok form ∧
        OfForm depth schema place ((schema.title?.map NameHint.explicit).getD hint) s form b := by
  unfold schemaWith
  apply consults_check_bind
  . rintro fault hfault b ⟨schema, form, hschema, -⟩
    cases hfault.symm.trans hschema
  . intro schema hschema
    apply consults_check_bind
    . rintro fault hfault b ⟨schema', form, hschema', hform, -⟩
      cases hschema.symm.trans hschema'
      cases hfault.symm.trans hform
    . intro form hform
      apply (consults_formWith form).congr
      intro b
      constructor
      . intro hb
        exact ⟨schema, form, hschema, hform, hb⟩
      . rintro ⟨schema', form', hschema', hform', hb⟩
        cases hschema.symm.trans hschema'
        cases hform.symm.trans hform'
        exact hb

theorem consults_visit {e : (Call → Effect Handle) → Effect Handle}
    (h : Consults e (s.begun place) P) :
    Consults (fun ask => visit place (e ask)) s fun b =>
      ¬s.Knows place.loc ∧ ¬(place.loc ∈ s.active ∧ place.loc ∈ s.reentered) ∧ P b := by
  constructor
  . rintro b ⟨hunknown, hfree, hb⟩ ask fault hask hfault
    have hstop := ends_iff_fault.2 (h.stops b hb ask fault hask hfault)
    apply ends_iff_fault.1
    apply alike_visit
    . exact fun h hknown => absurd (State.knows_iff.2 ⟨h, hknown⟩) hunknown
    . exact fun _ hactive hreentered => absurd ⟨hactive, hreentered⟩ hfree
    . exact fun _ _ => hstop
  . intro b hb ask hask
    have hvisit : Alike (visit place (e ask)) (visit place (e effect)) (fun _ _ => True)
        (fun _ _ => True) s := by
      apply alike_visit
      . exact fun _ _ => trivial
      . exact fun _ _ _ => trivial
      . intro hunknown hfree
        refine ⟨h.ignores b (fun h => hb ⟨hunknown, hfree, h⟩) ask hask, ?_⟩
        split <;> trivial
    exact hvisit.1

end Call

end SchemaGraph
