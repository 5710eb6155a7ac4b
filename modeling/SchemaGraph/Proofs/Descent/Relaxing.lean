import SchemaGraph.Proofs.Descent.Termination
import SchemaGraph.Proofs.Descent.Upkeep
import SchemaGraph.Proofs.Unification.Relaxing

/-!
This module contains the proof that `oneOf` and `anyOf` are interchangeable. When no schema has both
keywords, a document in which `oneOf` has been renamed to `anyOf` is converted to the same graph, and
every location on the way is the renamed one. The renaming keeps the locations of the document
apart, so what is known and under way at a location is known and under way at the renamed one.
-/

namespace SchemaGraph

def Location.IsApart (loc : Location) (locs : List Location) : Prop :=
  ∀ loc' ∈ locs, loc'.relaxed = loc.relaxed → loc' = loc

theorem Location.isApart_cons {loc first : Location} {rest : List Location} :
    loc.IsApart (first :: rest) ↔
      (first.relaxed = loc.relaxed → first = loc) ∧ loc.IsApart rest :=
  List.forall_mem_cons

section Apart

variable {locs : List Location} {memo : Entries Location Handle} {loc : Location}

theorem erase_map_relaxed (hapart : loc.IsApart locs) :
    (locs.map Location.relaxed).erase loc.relaxed = (locs.erase loc).map Location.relaxed := by
  induction locs with
  | nil => rfl
  | cons first rest ih =>
    rw [Location.isApart_cons] at hapart
    rw [List.map_cons, List.erase_cons, List.erase_cons]
    by_cases hfirst : first = loc
    . simp [hfirst]
    . have hne : first.relaxed ≠ loc.relaxed := fun h => hfirst (hapart.1 h)
      simp [hfirst, hne, ih hapart.2]

theorem mem_map_relaxed_iff (hapart : loc.IsApart locs) :
    loc.relaxed ∈ locs.map Location.relaxed ↔ loc ∈ locs := by
  constructor
  . intro h
    obtain ⟨loc', hmem, heq⟩ := List.mem_map.1 h
    rwa [← hapart loc' hmem heq]
  . exact List.mem_map_of_mem

theorem get?_relaxedMemo (hapart : loc.IsApart memo.keys) :
    (relaxedMemo memo).get? loc.relaxed = memo.get? loc := by
  induction memo with
  | nil => rfl
  | cons entry rest ih =>
    obtain ⟨first, h⟩ := entry
    simp only [Entries.keys, List.map_cons, Location.isApart_cons] at hapart
    have hrest := ih hapart.2
    simp only [relaxedMemo, List.map_cons, Entries.get?] at hrest ⊢
    by_cases hfirst : first = loc
    . simp [hfirst]
    . have hne : first.relaxed ≠ loc.relaxed := fun h => hfirst (hapart.1 h)
      simp [hfirst, hne, hrest]

theorem put_relaxedMemo (h : Handle) (hapart : loc.IsApart memo.keys) :
    (relaxedMemo memo).put loc.relaxed h = relaxedMemo (memo.put loc h) := by
  induction memo with
  | nil => rfl
  | cons entry rest ih =>
    obtain ⟨first, h'⟩ := entry
    simp only [Entries.keys, List.map_cons, Location.isApart_cons] at hapart
    have hrest := ih hapart.2
    simp only [relaxedMemo, List.map_cons, Entries.put] at hrest ⊢
    by_cases hfirst : first = loc
    . simp [hfirst]
    . have hne : first.relaxed ≠ loc.relaxed := fun h => hfirst (hapart.1 h)
      simp [hfirst, hne, hrest]

end Apart

structure Relaxable (document : Json) : Prop where
  hasUniqueKeys : document.hasUniqueKeys = true
  choosesOnce : ∀ place, Addressed document place → place.node.ChoosesOnce

namespace Descent

open Effect

def RelaxesAlong (document : Json) (edges : List Edge) (convert : Convert) : Prop :=
  ∀ edge ∈ edges, ∀ hint s, s.Located document →
    Relaxes document (convert edge.target.node edge.target.loc hint)
      (convert edge.target.node.relaxed edge.target.loc.relaxed hint) s

variable {document : Json} {place : Place} {schema : Schema} {convert : Convert} {s : State}
  {dispatch dispatch' : Effect Handle}

theorem RelaxesAlong.subset {edges edges' : List Edge} (hc : RelaxesAlong document edges convert)
    (hsubset : edges' ⊆ edges) : RelaxesAlong document edges' convert :=
  fun edge hedge => hc edge (hsubset hedge)

theorem relaxes_fill {h : Handle} {before after : Shape} {complete : Graph → Except Fault Graph}
    (hcomplete : ∀ g, complete g =
      if g.shape? h = some before then .ok (g.setShape h after) else .error (.noOpenSlot h))
    (hs : s.Located document) : Relaxes document (fill complete) (fill complete) s := by
  have hrun : ∀ t : State, (fill complete).run t =
      if t.graph.shape? h = some before then
        (.ok (), { t with graph := t.graph.setShape h after })
      else (.error (.noOpenSlot h), t) := by
    intro t
    unfold run fill
    rw [hcomplete]
    by_cases hshape : t.graph.shape? h = some before
    . rw [if_pos hshape, if_pos hshape]
    . rw [if_neg hshape, if_neg hshape]
  by_cases hshape : s.graph.shape? h = some before
  . have hleft := (hrun s).trans (if_pos hshape)
    have hright := (hrun s.relaxed).trans (if_pos hshape)
    constructor
    . rw [hleft, hright]
      rfl
    . rw [hleft]
      exact ⟨hs.memo, hs.active, hs.reentered, hs.document⟩
  . have hleft := (hrun s).trans (if_neg hshape)
    have hright := (hrun s.relaxed).trans (if_neg hshape)
    constructor
    . rw [hleft, hright]
      rfl
    . rw [hleft]
      exact hs

section Locations

variable (hdocument : Relaxable document) {loc : Location} (hloc : loc ∈ document.locations)

include hdocument hloc

theorem apart {locs : List Location} (hlocs : locs ⊆ document.locations) : loc.IsApart locs := by
  intro loc' hmem heq
  obtain ⟨node, hplace⟩ := (Json.mem_locations_iff hdocument.hasUniqueKeys).1 hloc
  obtain ⟨node', hplace'⟩ := (Json.mem_locations_iff hdocument.hasUniqueKeys).1 (hlocs hmem)
  exact hplace'.loc_eq_of_relaxed hdocument.choosesOnce hplace heq

theorem relaxes_record_bind {α : Type} {h : Handle} {f f' : Unit → Effect α}
    (hs : s.Located document)
    (hnext : ∀ t, t.Located document → Relaxes document (f ()) (f' ()) t) :
    Relaxes document (record loc h >>= f) (record loc.relaxed h >>= f') s := by
  have hmemo := put_relaxedMemo h (apart hdocument hloc hs.memo)
  unfold record
  apply relaxes_change_bind
  . unfold State.relaxed
    dsimp only
    rw [hmemo]
    rfl
  . apply hnext
    refine ⟨?_, hs.active, hs.reentered, hs.document⟩
    rw [Entries.keys_put]
    split
    . exact hs.memo
    . exact List.append_subset.2 ⟨hs.memo, List.cons_subset.2 ⟨hloc, List.nil_subset _⟩⟩

theorem ended_relaxed {again again' : Prop} [Decidable again] [Decidable again']
    (hagain : again' ↔ again) (hs : s.Located document) :
    s.relaxed.ended loc.relaxed again' = (s.ended loc again).relaxed := by
  unfold State.ended
  by_cases h : again
  . rw [if_pos h, if_pos (hagain.2 h)]
    have herase := erase_map_relaxed (apart hdocument hloc hs.reentered)
    unfold State.relaxed
    dsimp only
    rw [herase]
    rfl
  . rw [if_neg h, if_neg (mt hagain.1 h)]
    have herase := erase_map_relaxed (apart hdocument hloc hs.active)
    unfold State.relaxed
    dsimp only
    rw [herase]
    rfl

end Locations

theorem located_ended (hs : s.Located document) (loc : Location) (again : Prop)
    [Decidable again] : (s.ended loc again).Located document := by
  unfold State.ended
  split
  . exact ⟨hs.memo, hs.active, List.Subset.trans List.erase_subset hs.reentered, hs.document⟩
  . exact ⟨hs.memo, List.Subset.trans List.erase_subset hs.active, hs.reentered, hs.document⟩

section Visit

variable (hdocument : Relaxable document) (hplace : Addressed document place)

theorem begun_relaxed (hactive : place.relaxed.loc ∈ s.relaxed.active ↔ place.loc ∈ s.active) :
    s.relaxed.begun place.relaxed = (s.begun place).relaxed := by
  unfold State.begun
  by_cases h : place.loc ∈ s.active
  . rw [if_pos h, if_pos (hactive.2 h)]
    rfl
  . rw [if_neg h, if_neg (mt hactive.1 h)]
    rfl

include hplace

theorem located_begun (hs : s.Located document) : (s.begun place).Located document := by
  have hloc := hplace.mem_locations
  unfold State.begun
  split
  . exact ⟨hs.memo, hs.active, List.cons_subset.2 ⟨hloc, hs.reentered⟩, hs.document⟩
  . exact ⟨hs.memo, List.cons_subset.2 ⟨hloc, hs.active⟩, hs.reentered, hs.document⟩

include hdocument

theorem relaxes_marked {mark mark' : Effect Handle → Effect Handle} (hs : s.Located document)
    (hactive : place.relaxed.loc ∈ s.relaxed.active ↔ place.loc ∈ s.active)
    (hmark : (mark dispatch).run (s.asked place) =
      ((dispatch.run (s.begun place)).1,
        (dispatch.run (s.begun place)).2.ended place.loc (place.loc ∈ s.active)))
    (hmark' : (mark' dispatch').run (s.relaxed.asked place.relaxed) =
      ((dispatch'.run (s.relaxed.begun place.relaxed)).1,
        (dispatch'.run (s.relaxed.begun place.relaxed)).2.ended place.relaxed.loc
          (place.relaxed.loc ∈ s.relaxed.active)))
    (hdispatch : ∀ t, t.Located document → Relaxes document dispatch dispatch' t) :
    Relaxes document (do
      let h ← mark dispatch
      record place.loc h
      return h) (do
      let h ← mark' dispatch'
      record place.relaxed.loc h
      return h) (s.asked place) := by
  have hloc := hplace.mem_locations
  obtain ⟨hrun, hlocated⟩ := hdispatch _ (located_begun hplace hs)
  have hmarked : Relaxes document (mark dispatch) (mark' dispatch') (s.asked place) := by
    constructor
    . refine hmark'.trans ?_
      rw [hmark, begun_relaxed hactive, hrun]
      exact congrArg (Prod.mk _) (ended_relaxed hdocument hloc hactive hlocated)
    . rw [hmark]
      exact located_ended hlocated _ _
  apply hmarked.next
  intro h t ht
  exact relaxes_record_bind hdocument hloc ht fun u hu => relaxes_pure h hu

theorem relaxes_visit (hs : s.Located document)
    (hdispatch : ∀ t, t.Located document → Relaxes document dispatch dispatch' t) :
    Relaxes document (visit place dispatch) (visit place.relaxed dispatch') s := by
  have hloc := hplace.mem_locations
  have hasked : (s.asked place).Located document := hs.note _
  have hmemo : (s.asked place).relaxed.memo.get? place.relaxed.loc =
      (s.asked place).memo.get? place.loc :=
    get?_relaxedMemo (apart hdocument hloc hs.memo)
  have hactive :
      place.relaxed.loc ∈ (s.asked place).relaxed.active ↔ place.loc ∈ (s.asked place).active :=
    mem_map_relaxed_iff (apart hdocument hloc hs.active)
  have hreentered :
      place.relaxed.loc ∈ (s.asked place).relaxed.reentered ↔
        place.loc ∈ (s.asked place).reentered :=
    mem_map_relaxed_iff (apart hdocument hloc hs.reentered)
  unfold visit
  apply relaxes_note_bind
  change Relaxes document _ _ (s.asked place)
  apply relaxes_state_bind
  rw [hmemo]
  cases (s.asked place).memo.get? place.loc with
  | some h => exact relaxes_pure h hasked
  | none =>
    dsimp only
    by_cases h : place.loc ∈ (s.asked place).active
    . rw [if_pos h, if_pos (hactive.2 h)]
      by_cases hagain : place.loc ∈ (s.asked place).reentered
      . rw [if_pos hagain, if_pos (hreentered.2 hagain)]
        exact relaxes_fail _ hasked
      . rw [if_neg hagain, if_neg (mt hreentered.1 hagain)]
        exact relaxes_marked hdocument hplace hs hactive (run_whileReentered _ place s h)
          (run_whileReentered _ place.relaxed s.relaxed (hactive.2 h)) hdispatch
    . rw [if_neg h, if_neg (mt hactive.1 h)]
      exact relaxes_marked hdocument hplace hs hactive (run_whileActive _ place s h)
        (run_whileActive _ place.relaxed s.relaxed (mt hactive.1 h)) hdispatch

end Visit

theorem RelaxesAlong.child {link : Link} {covered : Bool} {node : Json} {loc : Location}
    {step : Step} {edges : List Edge} (hc : RelaxesAlong document edges convert)
    (hedge : ⟨link, covered, ⟨node, loc.child step⟩⟩ ∈ edges) (hint : NameHint)
    (hs : s.Located document) :
    Relaxes document (convert node (loc.child step) hint)
      (convert node.relaxed (loc.relaxed.child step.relaxed) hint) s := by
  rw [← Location.relaxed_child]
  exact hc _ hedge hint s hs

theorem relaxes_intoFields (required : List String) {fields : List (String × Json)}
    (hc : RelaxesAlong document (place.fieldEdges fields) convert) (hs : s.Located document) :
    Relaxes document (intoFields convert required place.loc fields)
      (intoFields convert required place.loc.relaxed (Json.relaxedGroup fields)) s := by
  induction fields generalizing s with
  | nil => exact relaxes_pure [] hs
  | cons field rest ih =>
    obtain ⟨name, node⟩ := field
    have hrest : ∀ type t, t.Located document →
        Relaxes document (intoFields convert required place.loc rest >>= fun declared =>
            pure ((name, type) :: declared))
          (intoFields convert required place.loc.relaxed (Json.relaxedGroup rest) >>=
            fun declared => pure ((name, type) :: declared)) t := by
      intro type t ht
      apply (ih (hc.subset (List.subset_cons_self ..)) ht).next
      intro declared u hu
      exact relaxes_pure _ hu
    have hfield : Relaxes document
        (convert node (place.loc.child (.property name)) (.inferred name))
        (convert node.relaxed (place.loc.relaxed.child (.property name)) (.inferred name)) s :=
      hc.child (List.mem_cons_self ..) (.inferred name) hs
    unfold intoFields Json.relaxedGroup
    apply hfield.next
    intro declared t ht
    dsimp only
    split
    . rw [pure_bind, pure_bind]
      exact hrest declared t ht
    . exact (relaxes_build (fun g => g.addNullable declared (.inferred name)) ht).next hrest

theorem relaxes_intoRecord (hdocument : Relaxable document) (hplace : Addressed document place)
    (hint : NameHint) {fields : List (String × Json)}
    (hc : RelaxesAlong document (place.fieldEdges fields) convert) (hs : s.Located document) :
    Relaxes document (intoRecord convert schema fields place.loc hint)
      (intoRecord convert schema.relaxed (Json.relaxedGroup fields) place.loc.relaxed hint) s := by
  unfold intoRecord
  rw [Schema.required_relaxed]
  apply relaxes_check_bind hs
  intro required _
  apply (relaxes_build _ hs).next
  intro h t ht
  apply relaxes_record_bind hdocument hplace.mem_locations ht
  intro t ht
  apply (relaxes_intoFields required hc ht).next
  intro declared u hu
  apply (relaxes_fill (fun g => g.fillRecord_eq h declared) hu).next
  intro _ v hv
  exact relaxes_pure h hv

theorem relaxes_intoMap (hdocument : Relaxable document) (hplace : Addressed document place)
    {values : Json} (hint : NameHint)
    (hc : RelaxesAlong document
      [⟨.values, true, ⟨values, place.loc.child .additionalProperties⟩⟩] convert)
    (hs : s.Located document) :
    Relaxes document (intoMap convert values place.loc hint)
      (intoMap convert values.relaxed place.loc.relaxed hint) s := by
  unfold intoMap
  apply (relaxes_build _ hs).next
  intro h t ht
  apply relaxes_record_bind hdocument hplace.mem_locations ht
  intro t ht
  apply (hc.child (List.mem_cons_self ..) hint.singular ht).next
  intro type u hu
  apply (relaxes_fill (fun g => g.fillMap_eq h type) hu).next
  intro _ v hv
  exact relaxes_pure h hv

theorem relaxes_intoObject (hdocument : Relaxable document) (hplace : Addressed document place)
    (hint : NameHint) (hc : RelaxesAlong document (place.objectEdges schema) convert)
    (hs : s.Located document) :
    Relaxes document (intoObject convert schema place.loc hint)
      (intoObject convert schema.relaxed place.loc.relaxed hint) s := by
  have hplain : Relaxes document (do
      let any ← build fun g => g.addPrimitive .any
      build fun g => g.addMap any) (do
      let any ← build fun g => g.addPrimitive .any
      build fun g => g.addMap any) s := by
    apply (relaxes_build _ hs).next
    intro any t ht
    exact relaxes_build _ ht
  unfold intoObject
  rw [Schema.properties?_relaxed]
  apply relaxes_check_bind hs
  intro properties? hproperties
  unfold Place.objectEdges at hc
  rw [hproperties] at hc
  cases properties? with
  | some properties => exact relaxes_intoRecord hdocument hplace hint hc hs
  | none =>
    dsimp only [Option.map_none] at hc ⊢
    rw [Schema.additional?_relaxed]
    cases hadditional : schema.additional? with
    | none => exact hplain
    | some additional =>
      cases additional with
      | allowed => exact hplain
      | forbidden => exact relaxes_build _ hs
      | schema values =>
        rw [hadditional] at hc
        exact relaxes_intoMap hdocument hplace hint hc hs

theorem relaxes_intoArray (hint : NameHint) {covered : Bool}
    (hc : RelaxesAlong document (place.itemEdges schema covered) convert)
    (hs : s.Located document) :
    Relaxes document (intoArray convert schema place.loc hint)
      (intoArray convert schema.relaxed place.loc.relaxed hint) s := by
  have harray : ∀ items t, t.Located document →
      Relaxes document (build fun g => g.addArray items) (build fun g => g.addArray items) t :=
    fun _ _ ht => relaxes_build _ ht
  unfold intoArray
  rw [Schema.items?_relaxed]
  apply relaxes_check_bind hs
  intro items? hitems
  unfold Place.itemEdges at hc
  rw [hitems] at hc
  cases items? with
  | none => exact (relaxes_build _ hs).next harray
  | some node => exact (hc.child (List.mem_cons_self ..) hint.singular hs).next harray

theorem relaxes_intoString (hint : NameHint) (hs : s.Located document) :
    Relaxes document (intoString schema place.loc hint)
      (intoString schema.relaxed place.loc.relaxed hint) s := by
  unfold intoString
  rw [Schema.format?_relaxed]
  split
  . exact relaxes_build _ hs
  . exact relaxes_build _ hs
  . exact relaxes_build _ hs
  . exact relaxes_build _ hs
  . exact relaxes_fail _ hs

theorem relaxes_intoNamed (hdocument : Relaxable document) (hplace : Addressed document place)
    (hint : NameHint) (name : String) {covered : Bool}
    (hc : RelaxesAlong document (place.namedEdges schema covered name) convert)
    (hs : s.Located document) :
    Relaxes document (intoNamed convert schema place.loc hint name)
      (intoNamed convert schema.relaxed place.loc.relaxed hint name) s := by
  unfold intoNamed
  split
  . exact relaxes_intoObject hdocument hplace hint hc hs
  . exact relaxes_intoArray hint hc hs
  . exact relaxes_intoString hint hs
  . exact relaxes_build _ hs
  . exact relaxes_build _ hs
  . exact relaxes_build _ hs
  . exact relaxes_build _ hs
  . exact relaxes_fail _ hs

theorem relaxes_intoNames (hdocument : Relaxable document) (hplace : Addressed document place)
    (hint : NameHint) {names : List String}
    (hc : RelaxesAlong document (place.typeEdges schema false (distinct names)) convert)
    (hs : s.Located document) :
    Relaxes document (intoNames convert schema place.loc hint names)
      (intoNames convert schema.relaxed place.loc.relaxed hint names) s := by
  have hnamed : ∀ name ∈ distinct names, ∀ t, t.Located document →
      Relaxes document (intoNamed convert schema place.loc hint name)
        (intoNamed convert schema.relaxed place.loc.relaxed hint name) t := by
    intro name hname t ht
    obtain ⟨covered, hsubset⟩ := place.exists_namedEdges_subset schema false hname
    exact relaxes_intoNamed hdocument hplace hint name (hc.subset hsubset) ht
  unfold intoNames
  split
  . next name hnames =>
    rw [hnames] at hnamed
    exact hnamed name (List.mem_singleton_self _) s hs
  . apply (relaxes_collect _ _ _ hnamed hs).next
    intro types t ht
    exact Unification.relaxable_unify document types hint place.loc t ht

theorem relaxes_intoAlternatives (step : Nat → Step) (hint : NameHint) (index : Nat)
    {nodes : List Json} (hc : RelaxesAlong document (place.choiceEdges step index nodes) convert)
    (hs : s.Located document) :
    Relaxes document (intoAlternatives convert step place.loc hint index nodes)
      (intoAlternatives convert (fun index => (step index).relaxed) place.loc.relaxed hint index
        (Json.relaxedNodes nodes)) s := by
  induction nodes generalizing index s with
  | nil => exact relaxes_pure [] hs
  | cons node rest ih =>
    unfold intoAlternatives
    apply (hc.child (List.mem_cons_self ..) hint.weaken hs).next
    intro type t ht
    apply (ih (index + 1) (hc.subset (List.subset_cons_self ..)) ht).next
    intro types u hu
    exact relaxes_pure _ hu

theorem relaxes_intoReference (text : String) (hint : NameHint)
    (hc : RelaxesAlong document (place.referenceEdges document text) convert)
    (hs : s.Located document) :
    Relaxes document (intoReference convert text place hint)
      (intoReference convert text place.relaxed hint) s := by
  unfold intoReference
  nth_rewrite 2 [← Reference.relaxing_ofText]
  apply relaxes_check_bind hs
  intro reference hreference
  apply relaxes_state_bind
  have hdocument : s.relaxed.document = document.relaxed := congrArg Json.relaxed hs.document
  rw [hs.document, hdocument]
  dsimp only [id]
  rw [Place.resolve_relaxed (Reference.isReferring_of_ofText hreference).2]
  apply relaxes_check_bind hs
  intro target htarget
  unfold Place.referenceEdges at hc
  rw [hreference] at hc
  dsimp only at hc
  rw [htarget] at hc
  exact hc _ (List.mem_cons_self ..) _ s hs

theorem relaxes_intoForm (hdocument : Relaxable document) (hplace : Addressed document place)
    (hint : NameHint) {form : Form}
    (hc : RelaxesAlong document (place.formEdges document schema form) convert)
    (hs : s.Located document) :
    Relaxes document (intoForm convert schema place hint form)
      (intoForm convert schema.relaxed place.relaxed hint form.relaxed) s := by
  cases form with
  | reference text => exact relaxes_intoReference text hint hc hs
  | enum cases => exact relaxes_build (fun g => g.addEnum hint cases) hs
  | named names => exact relaxes_intoNames hdocument hplace hint hc hs
  | choice step nodes =>
    apply (relaxes_intoAlternatives step hint 0 hc hs).next
    intro types t ht
    exact Unification.relaxable_unify document types hint place.loc t ht
  | anything => exact relaxes_build (fun g => g.addPrimitive .any) hs

theorem relaxes_intoSchema (hdocument : Relaxable document) (hplace : Addressed document place)
    (hint : NameHint) (hc : RelaxesAlong document (place.edges document) convert)
    (hs : s.Located document) :
    Relaxes document (intoSchema convert place.node place.loc hint)
      (intoSchema convert place.relaxed.node place.relaxed.loc hint) s := by
  rw [intoSchema_eq, intoSchema_eq]
  unfold Place.relaxed
  dsimp only
  rw [Schema.ofJson_relaxed]
  apply relaxes_check_bind hs
  intro schema hschema
  have honce : schema.get? .oneOf = none ∨ schema.get? .anyOf = none := by
    rw [Schema.get?_of_ofJson hschema, Schema.get?_of_ofJson hschema]
    exact hdocument.choosesOnce place hplace
  rw [Schema.form_relaxed place.loc honce, Schema.title?_relaxed]
  apply relaxes_check_bind hs
  intro form hform
  rw [Place.edges_of_form hschema hform] at hc
  exact relaxes_intoForm hdocument hplace _ hc hs

theorem relaxes_convertWithin (hdocument : Relaxable document) (depth : Nat)
    (hplace : Addressed document place) (hint : NameHint) (hs : s.Located document) :
    Relaxes document (convertWithin depth place.node place.loc hint)
      (convertWithin depth place.relaxed.node place.relaxed.loc hint) s := by
  induction depth generalizing place hint s with
  | zero => exact relaxes_fail _ hs
  | succ depth ih =>
    rw [convertWithin_succ, convertWithin_succ]
    apply relaxes_visit hdocument hplace hs
    intro t ht
    refine relaxes_intoSchema hdocument hplace hint ?_ ht
    intro edge hedge hint u hu
    exact ih (hplace.next hdocument.hasUniqueKeys hedge) hint hu

end Descent

namespace Conversion

open Descent

theorem ofDocument_relaxed {document : Json} (hkeys : document.hasUniqueKeys = true)
    (honce : ∀ place, Addressed document place → place.node.ChoosesOnce) (options : Options) :
    ofDocument document.relaxed options =
        (ofDocument document options).mapError Fault.relaxed ∧
      run document.relaxed options =
        ((run document options).1.mapError Fault.relaxed, (run document options).2.relaxed) := by
  have hsize : document.relaxed.size = document.size := Json.size_relaxedAs _ document
  have hdepth : depthBound document.relaxed document.relaxed = depthBound document document := by
    unfold depthBound
    rw [hsize]
  have hstart : (State.start document).Located document :=
    ⟨List.nil_subset _, List.nil_subset _, List.nil_subset _, rfl⟩
  have hrun : run document.relaxed options =
      ((run document options).1.mapError Fault.relaxed, (run document options).2.relaxed) := by
    rw [run_eq, run_eq, hdepth]
    exact (relaxes_convertWithin ⟨hkeys, honce⟩ _ Addressed.root _ hstart).run
  refine ⟨?_, hrun⟩
  unfold ofDocument
  rw [hrun]
  generalize run document options = outcome
  rcases outcome with ⟨fault | root, s⟩
  . rfl
  . rfl

def listDocument : Json :=
  .object [
    ("oneOf", .array [
      .object [("type", .string "null")],
      .object [("$ref", .string "#/definitions/cell")]]),
    ("definitions", .object [
      ("cell", .object [
        ("type", .string "object"),
        ("properties", .object [
          ("oneOf", .object [
            ("anyOf", .array [
              .object [("type", .string "number")],
              .object [("type", .string "string")]])]),
          ("rest", .object [("$ref", .string "#")])])])])]

theorem ofDocument_relaxed_list :
    listDocument.hasUniqueKeys = true ∧
      (∀ place, Addressed listDocument place → place.node.ChoosesOnce) ∧
      (ofDocument listDocument {}).isOk = true ∧
      ofDocument listDocument.relaxed {} = (ofDocument listDocument {}).mapError Fault.relaxed ∧
      run listDocument.relaxed {} =
        ((run listDocument {}).1.mapError Fault.relaxed, (run listDocument {}).2.relaxed) := by
  have hkeys : listDocument.hasUniqueKeys = true := by decide
  have hwithin : ∀ place ∈ Place.within listDocument.size ⟨listDocument, .root⟩,
      place.node.ChoosesOnce := by decide
  have honce : ∀ place, Addressed listDocument place → place.node.ChoosesOnce :=
    fun place hplace => hwithin place hplace.mem_within
  exact ⟨hkeys, honce, by decide +kernel, ofDocument_relaxed hkeys honce {}⟩

end Conversion

end SchemaGraph
