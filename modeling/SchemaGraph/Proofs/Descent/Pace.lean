import SchemaGraph.Proofs.Descent.Contract
import SchemaGraph.Proofs.Descent.Upkeep
import SchemaGraph.Proofs.Document.Ties
import SchemaGraph.Proofs.Unification.Pace

/-!
This module contains the conversion of two schemas in two states side by side. When the schemas are
tied, the two conversions ask for paired schemas in the same order, and besides that they do the
same few things to their states. So they stay in every relation that these things keep up.
-/

namespace SchemaGraph

namespace Descent

open Effect

/--
A relation `J` of states, together with the nodes that are open at a time, that the conversions of
two schemas at the location `loc` keep up. They get the same names if `named` holds. The schemas
have faults with `F`, and a fault leaves `E`.
-/
structure Pace (named : Prop) (document document' : Json) (loc : Location) (F : Fault → Prop)
    (J : List Leaf → State → State → Prop) (E : Fault → State → State → Prop) : Prop where
  unifying opened : Unification.Pace named (J opened) E
  document {opened s s'} : J opened s s' → s.document = document ∧ s'.document = document'
  push {opened s s'} {shape : Shape} {hint hint' : Option NameHint} : J opened s s' →
    shape.isOpen = true → (named → hint = hint') →
    J (((s.graph.push ⟨shape, hint⟩).1, shape) :: opened)
      (State.recorded { s with graph := (s.graph.push ⟨shape, hint⟩).2 } loc
        (s.graph.push ⟨shape, hint⟩).1)
      (State.recorded { s' with graph := (s'.graph.push ⟨shape, hint'⟩).2 } loc
        (s'.graph.push ⟨shape, hint'⟩).1)
  filled {opened s s' h} {before after : Shape} : J ((h, before) :: opened) s s' →
    s.graph.shape? h = some before → before.isOpen = true → after.isOpen = false →
    J opened { s with graph := s.graph.setShape h after }
      { s' with graph := s'.graph.setShape h after }
  slot {opened s s'} {leaf : Leaf} : J (leaf :: opened) s s' →
    s.graph.shape? leaf.1 ≠ some leaf.2 → E (.noOpenSlot leaf.1) s s'
  fault {opened s s' fault} : J opened s s' → F fault → E fault s s'

def InPace (named : Prop) (R : Json → Json → Prop) (J : List Leaf → State → State → Prop)
    (E : Fault → State → State → Prop) (convert convert' : Convert) : Prop :=
  ∀ node node' loc hint hint' opened s s', R node node' → (named → hint = hint') →
    J opened s s' →
    Abreast (convert node loc hint) (convert' node' loc hint') (fun _ => J opened) E s s'

variable {named : Prop} {document document' : Json} {loc : Location} {F : Fault → Prop}
  {R : Json → Json → Prop} {J : List Leaf → State → State → Prop}
  {E : Fault → State → State → Prop} {convert convert' : Convert}
  {place place' : Place} {schema schema' : Schema} {hint hint' : NameHint} {opened : List Leaf}
  {s s' : State}

theorem InPace.abreast_intoAlternatives (hc : InPace named R J E convert convert')
    (step : Nat → Step) (loc : Location) (hhint : named → hint = hint') (index : Nat)
    {nodes nodes' : List Json} (hnodes : List.Forall₂ R nodes nodes') (hs : J opened s s') :
    Abreast (intoAlternatives convert step loc hint index nodes)
      (intoAlternatives convert' step loc hint' index nodes')
      (fun types t t' => types.length = nodes.length ∧ J opened t t') E s s' := by
  induction hnodes generalizing index s s' with
  | nil => exact abreast_pure ⟨rfl, hs⟩
  | cons hnode _ ih =>
    have hweak : named → hint.weaken = hint'.weaken :=
      fun hnamed => congrArg NameHint.weaken (hhint hnamed)
    unfold intoAlternatives
    apply (hc _ _ _ _ _ _ _ _ hnode hweak hs).next
    intro type t t' ht
    apply (ih (index + 1) ht).next
    rintro types u u' ⟨hlength, hu⟩
    exact abreast_pure ⟨congrArg Nat.succ hlength, hu⟩

namespace Pace

theorem abreast_fill (hJ : Pace named document document' loc F J E) {h : Handle}
    {before after : Shape} {complete : Graph → Except Fault Graph}
    (hcomplete : ∀ g, complete g =
      if g.shape? h = some before then .ok (g.setShape h after) else .error (.noOpenSlot h))
    (hopen : before.isOpen = true) (hclosed : after.isOpen = false)
    (hs : J ((h, before) :: opened) s s') :
    Abreast (do
      fill complete
      return h) (do
      fill complete
      return h) (fun _ => J opened) E s s' := by
  have hfill : Abreast (fill complete) (fill complete) (fun _ => J opened) E s s' := by
    unfold Abreast run fill
    rw [hcomplete, hcomplete, ← (hJ.unifying _).shapes hs h]
    by_cases hshape : s.graph.shape? h = some before
    . rw [if_pos hshape, if_pos hshape]
      exact .result (hJ.filled hs hshape hopen hclosed)
    . rw [if_neg hshape, if_neg hshape]
      exact .fault (hJ.slot hs hshape)
  apply hfill.next
  intro _ t t' ht
  exact abreast_pure ht

theorem abreast_open (hJ : Pace named document document' loc F J E) {shape : Shape}
    {hint hint' : Option NameHint} {next next' : Handle → Effect Handle}
    (hopen : shape.isOpen = true) (hhint : named → hint = hint')
    (hnext : ∀ h t t', J ((h, shape) :: opened) t t' →
      Abreast (next h) (next' h) (fun _ => J opened) E t t') (hs : J opened s s') :
    Abreast (do
      let h ← build fun g => g.push ⟨shape, hint⟩
      record loc h
      next h) (do
      let h ← build fun g => g.push ⟨shape, hint'⟩
      record loc h
      next' h) (fun _ => J opened) E s s' := by
  have hh := ((hJ.unifying opened).shapes hs).push_eq ⟨shape, hint⟩ ⟨shape, hint'⟩
  have hpush := hJ.push hs hopen hhint
  rw [← hh] at hpush
  apply (abreast_build (Q := fun h t t' => h = (s.graph.push ⟨shape, hint⟩).1 ∧
    t = { s with graph := (s.graph.push ⟨shape, hint⟩).2 } ∧
    t' = { s' with graph := (s'.graph.push ⟨shape, hint'⟩).2 }) hh ⟨rfl, rfl, rfl⟩).next
  rintro _ _ _ ⟨rfl, rfl, rfl⟩
  apply abreast_change_bind
  exact hnext _ _ _ hpush

theorem abreast_intoFields (hJ : Pace named document document' loc F J E)
    (hc : InPace named R J E convert convert') (required : List String)
    {fields fields' : Entries String Json} (hfields : fields.Related R fields')
    (hs : J opened s s') :
    Abreast (intoFields convert required loc fields) (intoFields convert' required loc fields')
      (fun _ => J opened) E s s' := by
  induction hfields generalizing s s' with
  | nil => exact abreast_pure hs
  | @cons field field' rest rest' hfield _ ih =>
    obtain ⟨name, node⟩ := field
    obtain ⟨name', node'⟩ := field'
    obtain ⟨rfl, hnode⟩ := hfield
    have hhint : named → NameHint.inferred name = .inferred name := fun _ => rfl
    have hrest : ∀ type t t', J opened t t' →
        Abreast (intoFields convert required loc rest >>= fun declared =>
            pure ((name, type) :: declared))
          (intoFields convert' required loc rest' >>= fun declared =>
            pure ((name, type) :: declared)) (fun _ => J opened) E t t' := by
      intro type t t' ht
      apply (ih ht).next
      intro declared u u' hu
      exact abreast_pure hu
    unfold intoFields
    apply (hc _ _ _ _ _ _ _ _ hnode hhint hs).next
    intro declared t t' ht
    dsimp only
    split
    . rw [pure_bind, pure_bind]
      exact hrest declared t t' ht
    . exact ((hJ.unifying _).abreast_nullable hhint declared ht).next hrest

theorem abreast_intoRecord (hJ : Pace named document document' loc F J E)
    (hc : InPace named R J E convert convert') (hschema : schema.Tied F R loc schema')
    {fields fields' : Entries String Json} (hfields : fields.Related R fields')
    (hhint : named → hint = hint') (hs : J opened s s') :
    Abreast (intoRecord convert schema fields loc hint)
      (intoRecord convert' schema' fields' loc hint') (fun _ => J opened) E s s' := by
  unfold intoRecord
  apply abreast_check_bind (hschema.required.mono (fun _ => hJ.fault hs) fun _ _ => id)
  rintro required _ rfl
  refine hJ.abreast_open rfl (fun hnamed => congrArg some (hhint hnamed)) ?_ hs
  intro h t t' ht
  apply (hJ.abreast_intoFields hc required hfields ht).next
  intro declared u u' hu
  exact hJ.abreast_fill (fun g => g.fillRecord_eq h declared) rfl rfl hu

theorem abreast_intoMap (hJ : Pace named document document' loc F J E)
    (hc : InPace named R J E convert convert') {values values' : Json} (hvalues : R values values')
    (hhint : named → hint = hint') (hs : J opened s s') :
    Abreast (intoMap convert values loc hint) (intoMap convert' values' loc hint')
      (fun _ => J opened) E s s' := by
  have hsingular : named → hint.singular = hint'.singular :=
    fun hnamed => congrArg NameHint.singular (hhint hnamed)
  unfold intoMap
  refine hJ.abreast_open rfl (fun _ => rfl) ?_ hs
  intro h t t' ht
  apply (hc _ _ _ _ _ _ _ _ hvalues hsingular ht).next
  intro type u u' hu
  exact hJ.abreast_fill (fun g => g.fillMap_eq h type) rfl rfl hu

theorem abreast_intoObject (hJ : Pace named document document' loc F J E)
    (hc : InPace named R J E convert convert') (hschema : schema.Tied F R loc schema')
    (hhint : named → hint = hint') (hs : J opened s s') :
    Abreast (intoObject convert schema loc hint) (intoObject convert' schema' loc hint')
      (fun _ => J opened) E s s' := by
  have hplain : Abreast (do
      let any ← build fun g => g.addPrimitive .any
      build fun g => g.addMap any) (do
      let any ← build fun g => g.addPrimitive .any
      build fun g => g.addMap any) (fun _ => J opened) E s s' := by
    apply ((hJ.unifying _).abreast_primitive .any hs).next
    intro any t t' ht
    exact (hJ.unifying _).abreast_map any ht
  unfold intoObject
  apply abreast_check_bind (hschema.properties?.mono (fun _ => hJ.fault hs) fun _ _ => id)
  rintro _ _ (hfields | _)
  . exact hJ.abreast_intoRecord hc hschema hfields hhint hs
  . dsimp only
    match schema.additional?, schema'.additional?, hschema.additional? with
    | _, _, .none => exact hplain
    | _, _, .some .allowed => exact hplain
    | _, _, .some .forbidden =>
      exact abreast_build (((hJ.unifying _).shapes hs).push_eq _ _)
        ((hJ.unifying _).record [] hs hhint)
    | _, _, .some (.schema hvalues) => exact hJ.abreast_intoMap hc hvalues hhint hs

theorem abreast_intoArray (hJ : Pace named document document' loc F J E)
    (hc : InPace named R J E convert convert') (hschema : schema.Tied F R loc schema')
    (hhint : named → hint = hint') (hs : J opened s s') :
    Abreast (intoArray convert schema loc hint) (intoArray convert' schema' loc hint')
      (fun _ => J opened) E s s' := by
  have hsingular : named → hint.singular = hint'.singular :=
    fun hnamed => congrArg NameHint.singular (hhint hnamed)
  have harray : ∀ items t t', J opened t t' →
      Abreast (build fun g => g.addArray items) (build fun g => g.addArray items)
        (fun _ => J opened) E t t' :=
    fun items t t' ht => (hJ.unifying _).abreast_array items ht
  unfold intoArray
  apply abreast_check_bind (hschema.items?.mono (fun _ => hJ.fault hs) fun _ _ => id)
  rintro _ _ (hnode | _)
  . exact (hc _ _ _ _ _ _ _ _ hnode hsingular hs).next harray
  . exact ((hJ.unifying _).abreast_primitive .any hs).next harray

theorem abreast_intoString (hJ : Pace named document document' loc F J E)
    (hformat : schema.format? = schema'.format?)
    (hknown : ∀ format, schema.format? = some format → format ∉ formatNames →
      F (.unknownFormat format loc)) (hhint : named → hint = hint') (hs : J opened s s') :
    Abreast (intoString schema loc hint) (intoString schema' loc hint') (fun _ => J opened)
      E s s' := by
  unfold intoString
  rw [← hformat]
  split
  . exact (hJ.unifying _).abreast_string hhint hs
  . exact (hJ.unifying _).abreast_primitive .date hs
  . exact (hJ.unifying _).abreast_primitive .time hs
  . exact (hJ.unifying _).abreast_primitive .dateTime hs
  . next format hdate htime hmoment hsome =>
    refine abreast_fail (hJ.fault hs (hknown format hsome ?_))
    simp only [formatNames, List.mem_cons, List.not_mem_nil, or_false, not_or]
    exact ⟨hdate, htime, hmoment⟩

theorem abreast_intoNamed (hJ : Pace named document document' loc F J E)
    (hc : InPace named R J E convert convert') (hschema : schema.Tied F R loc schema')
    {name : String} (hname : name ∉ typeNames → F (.unknownType name loc))
    (hformat : name = "string" → ∀ format, schema.format? = some format → format ∉ formatNames →
      F (.unknownFormat format loc)) (hhint : named → hint = hint') (hs : J opened s s') :
    Abreast (intoNamed convert schema loc hint name) (intoNamed convert' schema' loc hint' name)
      (fun _ => J opened) E s s' := by
  unfold intoNamed
  split
  . exact hJ.abreast_intoObject hc hschema hhint hs
  . exact hJ.abreast_intoArray hc hschema hhint hs
  . exact hJ.abreast_intoString hschema.format? (hformat rfl) hhint hs
  . exact (hJ.unifying _).abreast_primitive .bool hs
  . exact (hJ.unifying _).abreast_primitive .null hs
  . exact (hJ.unifying _).abreast_primitive .integer hs
  . exact (hJ.unifying _).abreast_primitive .double hs
  . next hobject harray hstring hboolean hnull hinteger hnumber =>
    refine abreast_fail (hJ.fault hs (hname ?_))
    simp only [typeNames, List.mem_cons, List.not_mem_nil, or_false, not_or]
    exact ⟨hobject, harray, hstring, hboolean, hnull, hinteger, hnumber⟩

theorem abreast_intoNames (hJ : Pace named document document' loc F J E)
    (hc : InPace named R J E convert convert')
    (hschema : schema.Tied F R loc schema') {names : List String} (hnames : names ≠ [])
    (htype : ∀ name ∈ names, name ∉ typeNames → F (.unknownType name loc))
    (hformat : "string" ∈ names → ∀ format, schema.format? = some format → format ∉ formatNames →
      F (.unknownFormat format loc)) (hhint : named → hint = hint') (hs : J opened s s') :
    Abreast (intoNames convert schema loc hint names) (intoNames convert' schema' loc hint' names)
      (fun _ => J opened) E s s' := by
  have hnamed : ∀ name ∈ distinct names, ∀ t t', J opened t t' →
      Abreast (intoNamed convert schema loc hint name) (intoNamed convert' schema' loc hint' name)
        (fun _ => J opened) E t t' := by
    intro name hmem t t' ht
    have hname := mem_distinct.1 hmem
    refine hJ.abreast_intoNamed hc hschema (htype name hname) ?_ hhint ht
    rintro rfl
    exact hformat hname
  have hdistinct : distinct names ≠ [] := by
    obtain ⟨name, hname⟩ := List.exists_mem_of_ne_nil names hnames
    exact List.ne_nil_of_mem (mem_distinct.2 hname)
  unfold intoNames
  split
  . next name hsingle =>
    rw [hsingle] at hnamed
    exact hnamed name (List.mem_singleton_self _) s s' hs
  . apply (Unification.abreast_collect _ _ _ hnamed hs).next
    rintro types t t' ⟨hlength, ht⟩
    have htypes : types ≠ [] := by
      rintro rfl
      exact hdistinct (List.eq_nil_of_length_eq_zero hlength.symm)
    exact (hJ.unifying opened).inPace_unify _ _ _ _ _ _ htypes hhint ht

theorem abreast_intoChoice (hJ : Pace named document document' loc F J E)
    (hc : InPace named R J E convert convert') (step : Nat → Step) {nodes nodes' : List Json}
    (hnodes : List.Forall₂ R nodes nodes') (hempty : nodes = [] → F .nothingToUnify)
    (hhint : named → hint = hint') (hs : J opened s s') :
    Abreast (intoChoice convert step loc hint nodes) (intoChoice convert' step loc hint' nodes')
      (fun _ => J opened) E s s' := by
  unfold intoChoice
  apply (hc.abreast_intoAlternatives step loc hhint 0 hnodes hs).next
  rintro types t t' ⟨hlength, ht⟩
  by_cases htypes : types = []
  . subst htypes
    have hnodes : nodes = [] := List.eq_nil_of_length_eq_zero hlength.symm
    unfold Abreast
    rw [Unification.run_unify_nil, Unification.run_unify_nil]
    exact .fault (hJ.fault ht (hempty hnodes))
  . exact (hJ.unifying opened).inPace_unify _ _ _ _ _ _ htypes hhint ht

theorem abreast_intoReference (hJ : Pace named document document' place.loc F J E)
    (hc : InPace named R J E convert convert') {text : String}
    (hunread : ∀ fault, Reference.ofText text = .error fault → F fault)
    (htarget : ∀ reference, Reference.ofText text = .ok reference →
      Matched F (Place.Paired R) (place.resolve document reference.target)
        (place'.resolve document' reference.target))
    (hhint : named → hint = hint') (hs : J opened s s') :
    Abreast (intoReference convert text place hint) (intoReference convert' text place' hint')
      (fun _ => J opened) E s s' := by
  have hread : Matched (fun fault => E fault s s')
      (fun reference reference' => Reference.ofText text = .ok reference ∧ reference' = reference)
      (Reference.ofText text) (Reference.ofText text) :=
    Matched.self (fun fault h => hJ.fault hs (hunread fault h)) fun _ h => ⟨h, rfl⟩
  unfold intoReference
  apply abreast_check_bind hread
  rintro reference _ ⟨hreference, rfl⟩
  apply abreast_state_bind
  rw [(hJ.document hs).1, (hJ.document hs).2]
  apply abreast_check_bind ((htarget _ hreference).mono (fun _ => hJ.fault hs) fun _ _ => id)
  rintro ⟨node, loc⟩ ⟨node', loc'⟩ ⟨rfl, hnode⟩
  refine hc _ _ _ _ _ _ _ _ hnode ?_ hs
  intro hnamed
  rw [hhint hnamed]

theorem abreast_intoForm (hJ : Pace named document document' place.loc F J E)
    (hc : InPace named R J E convert convert') (hloc : place.loc = place'.loc) {form form' : Form}
    (hform : Form.Tied F R document document' place place' schema schema' form form')
    (hhint : named → hint = hint') (hs : J opened s s') :
    Abreast (intoForm convert schema place hint form) (intoForm convert' schema' place' hint' form')
      (fun _ => J opened) E s s' := by
  cases hform with
  | reference hunread htarget => exact hJ.abreast_intoReference hc hunread htarget hhint hs
  | enum cases => exact (hJ.unifying _).abreast_enum hhint cases hs
  | named hnames hschema htype hformat =>
    unfold intoForm
    rw [← hloc]
    exact hJ.abreast_intoNames hc hschema hnames htype hformat hhint hs
  | choice step hnodes hempty =>
    unfold intoForm
    rw [← hloc]
    exact hJ.abreast_intoChoice hc step hnodes hempty hhint hs
  | anything => exact (hJ.unifying _).abreast_primitive .any hs

theorem abreast_intoSchema (hJ : Pace named document document' place.loc F J E)
    (hc : InPace named R J E convert convert') (hloc : place.loc = place'.loc)
    (htied : Place.Tied F R document document' place place') (hhint : named → hint = hint')
    (opened : List Leaf) (hs : J opened s s') :
    Abreast (intoSchema convert place.node place.loc hint)
      (intoSchema convert' place'.node place'.loc hint') (fun _ => J opened) E s s' := by
  rw [intoSchema_eq, intoSchema_eq]
  apply abreast_check_bind (htied.mono (fun _ => hJ.fault hs) fun _ _ => id)
  rintro schema schema' ⟨htitle, hforms⟩
  apply abreast_check_bind (hforms.mono (fun _ => hJ.fault hs) fun _ _ => id)
  intro form form' hform
  refine hJ.abreast_intoForm hc hloc hform ?_ hs
  intro hnamed
  rw [htitle, hhint hnamed]

end Pace

section Visit

variable {dispatch dispatch' : Effect Handle} {Q : Handle → State → State → Prop}

theorem abreast_marked {mark mark' : Effect Handle → Effect Handle}
    (hmark : ∀ effect : Effect Handle, (mark effect).run (s.asked place) =
      ((effect.run (s.begun place)).1,
        (effect.run (s.begun place)).2.ended place.loc (place.loc ∈ s.active)))
    (hmark' : ∀ effect : Effect Handle, (mark' effect).run (s'.asked place') =
      ((effect.run (s'.begun place')).1,
        (effect.run (s'.begun place')).2.ended place'.loc (place'.loc ∈ s'.active)))
    (h : Abreast dispatch dispatch'
      (fun h t t' => Q h ((t.ended place.loc (place.loc ∈ s.active)).recorded place.loc h)
        ((t'.ended place'.loc (place'.loc ∈ s'.active)).recorded place'.loc h))
      (fun fault t t' => E fault (t.ended place.loc (place.loc ∈ s.active))
        (t'.ended place'.loc (place'.loc ∈ s'.active))) (s.begun place) (s'.begun place')) :
    Abreast (do
      let h ← mark dispatch
      record place.loc h
      return h) (do
      let h ← mark' dispatch'
      record place'.loc h
      return h) Q E (s.asked place) (s'.asked place') := by
  have hmarked : Abreast (mark dispatch) (mark' dispatch')
      (fun h t t' => Q h (t.recorded place.loc h) (t'.recorded place'.loc h)) E (s.asked place)
      (s'.asked place') := by
    unfold Abreast at h ⊢
    rw [hmark, hmark']
    exact h.map _ _ (fun _ _ _ => id) fun _ _ _ => id
  apply hmarked.next
  intro h t t' ht
  exact abreast_change_bind (abreast_pure ht)

theorem abreast_visit (hloc : place.loc = place'.loc)
    (hmemo : s.memo.get? place.loc = s'.memo.get? place'.loc)
    (hactive : place.loc ∈ s.active ↔ place'.loc ∈ s'.active)
    (hreentered : place.loc ∈ s.reentered ↔ place'.loc ∈ s'.reentered)
    (hknown : ∀ h, Q h (s.asked place) (s'.asked place'))
    (hthird : E (.unresolvedRecursion .endlessReference place.loc) (s.asked place)
      (s'.asked place'))
    (hopen : Abreast dispatch dispatch'
      (fun h t t' => Q h ((t.ended place.loc (place.loc ∈ s.active)).recorded place.loc h)
        ((t'.ended place'.loc (place'.loc ∈ s'.active)).recorded place'.loc h))
      (fun fault t t' => E fault (t.ended place.loc (place.loc ∈ s.active))
        (t'.ended place'.loc (place'.loc ∈ s'.active))) (s.begun place) (s'.begun place')) :
    Abreast (visit place dispatch) (visit place' dispatch') Q E s s' := by
  unfold visit note
  apply abreast_change_bind
  apply abreast_state_bind
  change Abreast _ _ Q E (s.asked place) (s'.asked place')
  dsimp only
  rw [← hmemo]
  cases hget : s.memo.get? place.loc with
  | some h => exact abreast_pure (hknown h)
  | none =>
    dsimp only
    by_cases h : place.loc ∈ s.active
    . have h' := hactive.1 h
      rw [if_pos h, if_pos h']
      by_cases hagain : place.loc ∈ s.reentered
      . rw [if_pos hagain, if_pos (hreentered.1 hagain), ← hloc]
        exact abreast_fail hthird
      . rw [if_neg hagain, if_neg (mt hreentered.2 hagain)]
        exact abreast_marked (fun effect => run_whileReentered effect place s h)
          (fun effect => run_whileReentered effect place' s' h') hopen
    . have h' := mt hactive.2 h
      rw [if_neg h, if_neg h']
      exact abreast_marked (fun effect => run_whileActive effect place s h)
        (fun effect => run_whileActive effect place' s' h') hopen

end Visit

end Descent

end SchemaGraph
