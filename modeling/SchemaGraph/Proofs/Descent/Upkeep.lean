import SchemaGraph.Proofs.Document.Addresses
import SchemaGraph.Proofs.Document.Edges
import SchemaGraph.Proofs.Descent.Frame
import SchemaGraph.Proofs.Unification.Upkeep

/-!
This module contains all that the conversion of one schema does to a state: besides asking along the
edges of its place and unifying types it builds shared nodes, opens nodes that it records for its
place, and fills these in. A property of states that survives all this is kept up by the conversion,
whatever the requests and the unifications are that it makes, as long as they keep it up.
-/

namespace SchemaGraph

namespace Graph

variable {g g' : Graph} {target : Handle}

theorem fillRecord_eq_ok {fields : Fields} (h : g.fillRecord target fields = .ok g') :
    g.Fills target (.record (.filled fields)) g' ∧
      g' = g.setShape target (.record (.filled fields)) := by
  have hfills := fills_fillRecord h
  rw [fillRecord_eq] at h
  split at h
  . cases h
    exact ⟨hfills, rfl⟩
  . cases h

theorem fillMap_eq_ok {values : Handle} (h : g.fillMap target values = .ok g') :
    g.Fills target (.map (.filled values)) g' ∧
      g' = g.setShape target (.map (.filled values)) := by
  have hfills := fills_fillMap h
  rw [fillMap_eq] at h
  split at h
  . cases h
    exact ⟨hfills, rfl⟩
  . cases h

end Graph

theorem Place.exists_namedEdges_subset (place : Place) (schema : Schema) (covered : Bool)
    {names : List String} {name : String} (hname : name ∈ names) :
    ∃ covered', place.namedEdges schema covered' name ⊆ place.typeEdges schema covered names := by
  induction names generalizing covered with
  | nil => cases hname
  | cons first rest ih =>
    unfold typeEdges
    rcases List.mem_cons.1 hname with rfl | hname
    . exact ⟨covered, List.subset_append_left _ _⟩
    . obtain ⟨covered', hsubset⟩ := ih (covered || place.opens schema first) hname
      exact ⟨covered', List.Subset.trans hsubset (List.subset_append_right _ _)⟩

namespace Descent

open Effect
open Unification (Unify Upholds)

def namesWith (convert : Convert) (unify : Unify) (schema : Schema) (loc : Location)
    (hint : NameHint) (names : List String) : Effect Handle := do
  match distinct names with
  | [name] => intoNamed convert schema loc hint name
  | names => do
    let types ← collect (names.map fun name => intoNamed convert schema loc hint name)
    unify types hint loc

def choiceWith (convert : Convert) (unify : Unify) (step : Nat → Step) (loc : Location)
    (hint : NameHint) (alternatives : List Json) : Effect Handle := do
  let types ← intoAlternatives convert step loc hint 0 alternatives
  unify types hint loc

def formWith (convert : Convert) (unify : Unify) (schema : Schema) (place : Place)
    (hint : NameHint) : Form → Effect Handle
  | .reference text => intoReference convert text place hint
  | .enum cases => build fun g => g.addEnum hint cases
  | .named names => namesWith convert unify schema place.loc hint names
  | .choice step nodes => choiceWith convert unify step place.loc hint nodes
  | .anything => build fun g => g.addPrimitive .any

def schemaWith (convert : Convert) (unify : Unify) (place : Place) (hint : NameHint) :
    Effect Handle := do
  let schema ← check (Schema.ofJson place.node place.loc)
  let form ← check (schema.form place.loc)
  formWith convert unify schema place ((schema.title?.map NameHint.explicit).getD hint) form

theorem intoForm_eq (convert : Convert) (schema : Schema) (place : Place) (hint : NameHint)
    (form : Form) :
    intoForm convert schema place hint form =
      formWith convert Unification.unify schema place hint form := by
  cases form with
  | _ => rfl

theorem intoSchema_eq_schemaWith (convert : Convert) (place : Place) (hint : NameHint) :
    intoSchema convert place.node place.loc hint =
      schemaWith convert Unification.unify place hint := by
  rw [intoSchema_eq]
  unfold schemaWith
  simp only [intoForm_eq]

/--
A property `J` of states, together with the nodes that are open at a time, that the conversion of a
schema at the location `loc` keeps up. `P` holds of the types that it handles. A fault leaves `E`.
-/
structure Upkeep (document : Json) (loc : Location) (P : Handle → Prop)
    (J : List Handle → State → Prop) (E : Fault → State → Prop) : Prop where
  closed opened : Unification.Upkeep P (J opened) E
  document {opened s} : J opened s → s.document = document
  push {opened s node} : node.shape.isOpen = true → J opened s →
    P (s.graph.push node).1 ∧ J ((s.graph.push node).1 :: opened)
      (State.recorded { s with graph := (s.graph.push node).2 } loc (s.graph.push node).1)
  filled {opened s h shape} : J (h :: opened) s →
    s.graph.Fills h shape (s.graph.setShape h shape) → shape.isOpen = false →
    (∀ child ∈ shape.children, P child) → J opened { s with graph := s.graph.setShape h shape }
  fault {opened s fault} : J opened s → E fault s

def Tends (edges : List Edge) (P : Handle → Prop) (J : List Handle → State → Prop)
    (E : Fault → State → Prop) (convert convert' : Convert) : Prop :=
  ∀ edge ∈ edges, ∀ hint opened s, J opened s →
    Alike (convert edge.target.node edge.target.loc hint)
      (convert' edge.target.node edge.target.loc hint) (fun h t => P h ∧ J opened t) E s

variable {document : Json} {place : Place} {P : Handle → Prop} {J : List Handle → State → Prop}
  {E : Fault → State → Prop} {convert convert' : Convert} {unify unify' : Unify}
  {edges edges' : List Edge} {opened : List Handle} {s : State} {schema : Schema}

theorem Tends.subset (hc : Tends edges P J E convert convert') (hsubset : edges' ⊆ edges) :
    Tends edges' P J E convert convert' :=
  fun edge hedge => hc edge (hsubset hedge)

theorem Tends.alike_intoAlternatives (step : Nat → Step) (hint : NameHint) (index : Nat)
    {nodes : List Json} (hc : Tends (place.choiceEdges step index nodes) P J E convert convert')
    (hs : J opened s) :
    Alike (intoAlternatives convert step place.loc hint index nodes)
      (intoAlternatives convert' step place.loc hint index nodes)
      (fun types t => (∀ h ∈ types, P h) ∧ J opened t) E s := by
  induction nodes generalizing index s with
  | nil => exact alike_pure ⟨fun _ hmem => (nomatch hmem), hs⟩
  | cons node rest ih =>
    unfold intoAlternatives
    apply (hc _ (List.mem_cons_self ..) hint.weaken _ _ hs).next
    rintro type t ⟨htype, ht⟩
    apply (ih _ (hc.subset (List.subset_cons_self _ _)) ht).next
    rintro types u ⟨htypes, hu⟩
    exact alike_pure ⟨List.forall_mem_cons.2 ⟨htype, htypes⟩, hu⟩

namespace Upkeep

theorem ends_fill (hJ : Upkeep document place.loc P J E) {h : Handle} {shape : Shape}
    {complete : Graph → Except Fault Graph} (hh : P h)
    (hfills : ∀ g, complete s.graph = .ok g →
      s.graph.Fills h shape g ∧ g = s.graph.setShape h shape)
    (hclosed : shape.isOpen = false) (hchildren : ∀ child ∈ shape.children, P child)
    (hs : J (h :: opened) s) :
    Ends (do
      fill complete
      return h) (fun h t => P h ∧ J opened t) E s := by
  apply alike_fill_bind
  . exact fun _ _ => hJ.fault hs
  . intro g hg
    obtain ⟨hfill, rfl⟩ := hfills g hg
    exact alike_pure ⟨hh, hJ.filled hs hfill hclosed hchildren⟩

theorem alike_intoFields (hJ : Upkeep document place.loc P J E) (required : List String)
    {fields : List (String × Json)} (hc : Tends (place.fieldEdges fields) P J E convert convert')
    (hs : J opened s) :
    Alike (intoFields convert required place.loc fields)
      (intoFields convert' required place.loc fields)
      (fun declared t => (∀ field ∈ declared, P field.2) ∧ J opened t) E s := by
  induction fields generalizing s with
  | nil => exact alike_pure ⟨fun _ hmem => (nomatch hmem), hs⟩
  | cons field rest ih =>
    obtain ⟨name, node⟩ := field
    have hrest : ∀ type t, P type → J opened t →
        Alike (intoFields convert required place.loc rest >>= fun declared =>
            pure ((name, type) :: declared))
          (intoFields convert' required place.loc rest >>= fun declared =>
            pure ((name, type) :: declared))
          (fun declared t => (∀ field ∈ declared, P field.2) ∧ J opened t) E t := by
      intro type t htype ht
      apply (ih (hc.subset (List.subset_cons_self _ _)) ht).next
      rintro declared u ⟨hdeclared, hu⟩
      exact alike_pure ⟨List.forall_mem_cons.2 ⟨htype, hdeclared⟩, hu⟩
    unfold intoFields
    apply (hc _ (List.mem_cons_self ..) (.inferred name) opened s hs).next
    rintro declared t ⟨hdeclared, ht⟩
    dsimp only
    split
    . rw [pure_bind, pure_bind]
      exact hrest declared t hdeclared ht
    . apply ((hJ.closed _).ends_nullable _ hdeclared ht).next
      rintro type u ⟨htype, hu⟩
      exact hrest type u htype hu

theorem alike_intoRecord (hJ : Upkeep document place.loc P J E)
    {properties : List (String × Json)} (hint : NameHint)
    (hc : Tends (place.fieldEdges properties) P J E convert convert') (hs : J opened s) :
    Alike (intoRecord convert schema properties place.loc hint)
      (intoRecord convert' schema properties place.loc hint) (fun h t => P h ∧ J opened t) E s := by
  unfold intoRecord
  apply alike_check_bind
  . exact fun _ _ => hJ.fault hs
  . intro required _
    have hopen : (Node.mk (.record .pending) (some hint)).shape.isOpen = true := rfl
    obtain ⟨hh, ht⟩ := hJ.push hopen hs
    apply (alike_build (Q := fun h t => h = (s.graph.addRecord hint .pending).1 ∧
      t = { s with graph := (s.graph.addRecord hint .pending).2 }) ⟨rfl, rfl⟩).next
    rintro _ _ ⟨rfl, rfl⟩
    apply alike_change_bind
    apply (hJ.alike_intoFields required hc ht).next
    rintro fields t ⟨hfields, ht⟩
    refine hJ.ends_fill hh (fun g hg => Graph.fillRecord_eq_ok hg) rfl ?_ ht
    intro child hchild
    obtain ⟨field, hfield, rfl⟩ := List.mem_map.1 hchild
    exact hfields field hfield

theorem alike_intoMap (hJ : Upkeep document place.loc P J E) {values : Json} (hint : NameHint)
    (hc : Tends [⟨.values, true, ⟨values, place.loc.child .additionalProperties⟩⟩] P J E
      convert convert') (hs : J opened s) :
    Alike (intoMap convert values place.loc hint) (intoMap convert' values place.loc hint)
      (fun h t => P h ∧ J opened t) E s := by
  unfold intoMap
  have hopen : (Node.mk (.map .pending) none).shape.isOpen = true := rfl
  obtain ⟨hh, ht⟩ := hJ.push hopen hs
  apply (alike_build (Q := fun h t => h = s.graph.addOpenMap.1 ∧
    t = { s with graph := s.graph.addOpenMap.2 }) ⟨rfl, rfl⟩).next
  rintro _ _ ⟨rfl, rfl⟩
  apply alike_change_bind
  apply (hc _ (List.mem_singleton_self _) hint.singular _ _ ht).next
  rintro type t ⟨htype, ht⟩
  refine hJ.ends_fill hh (fun g hg => Graph.fillMap_eq_ok hg) rfl ?_ ht
  exact List.forall_mem_singleton.2 htype

theorem alike_intoObject (hJ : Upkeep document place.loc P J E) (hint : NameHint)
    (hc : Tends (place.objectEdges schema) P J E convert convert') (hs : J opened s) :
    Alike (intoObject convert schema place.loc hint) (intoObject convert' schema place.loc hint)
      (fun h t => P h ∧ J opened t) E s := by
  have hplain : Ends (do
      let any ← build fun g => g.addPrimitive .any
      build fun g => g.addMap any) (fun h t => P h ∧ J opened t) E s := by
    apply ((hJ.closed _).ends_primitive .any hs).next
    rintro any t ⟨hany, ht⟩
    exact (hJ.closed _).ends_map hany ht
  unfold intoObject
  apply alike_check_bind
  . exact fun _ _ => hJ.fault hs
  . intro properties? hproperties
    unfold Place.objectEdges at hc
    rw [hproperties] at hc
    cases properties? with
    | some properties => exact hJ.alike_intoRecord hint hc hs
    | none =>
      dsimp only at hc ⊢
      cases hadditional : schema.additional? with
      | none => exact hplain
      | some additional =>
        cases additional with
        | allowed => exact hplain
        | forbidden =>
          exact alike_build ((hJ.closed _).record hint hs fun _ hmem => nomatch hmem)
        | schema values =>
          rw [hadditional] at hc
          exact hJ.alike_intoMap hint hc hs

theorem alike_intoArray (hJ : Upkeep document place.loc P J E) (hint : NameHint) {covered : Bool}
    (hc : Tends (place.itemEdges schema covered) P J E convert convert') (hs : J opened s) :
    Alike (intoArray convert schema place.loc hint) (intoArray convert' schema place.loc hint)
      (fun h t => P h ∧ J opened t) E s := by
  unfold intoArray
  apply alike_check_bind
  . exact fun _ _ => hJ.fault hs
  . intro items? hitems
    unfold Place.itemEdges at hc
    rw [hitems] at hc
    have harray : ∀ items t, P items ∧ J opened t →
        Ends (build fun g => g.addArray items) (fun h t => P h ∧ J opened t) E t :=
      fun items t h => (hJ.closed _).ends_array h.1 h.2
    cases items? with
    | none => exact ((hJ.closed _).ends_primitive .any hs).next harray
    | some node => exact (hc _ (List.mem_cons_self ..) hint.singular _ _ hs).next harray

theorem ends_intoString (hJ : Upkeep document place.loc P J E) (hint : NameHint)
    (hs : J opened s) :
    Ends (intoString schema place.loc hint) (fun h t => P h ∧ J opened t) E s := by
  unfold intoString
  split
  . exact (hJ.closed _).ends_string hint hs
  . exact (hJ.closed _).ends_primitive .date hs
  . exact (hJ.closed _).ends_primitive .time hs
  . exact (hJ.closed _).ends_primitive .dateTime hs
  . exact alike_fail (hJ.fault hs)

theorem alike_intoNamed (hJ : Upkeep document place.loc P J E) (hint : NameHint) (name : String)
    {covered : Bool} (hc : Tends (place.namedEdges schema covered name) P J E convert convert')
    (hs : J opened s) :
    Alike (intoNamed convert schema place.loc hint name)
      (intoNamed convert' schema place.loc hint name) (fun h t => P h ∧ J opened t) E s := by
  unfold intoNamed
  split
  . exact hJ.alike_intoObject hint hc hs
  . exact hJ.alike_intoArray hint hc hs
  . exact hJ.ends_intoString hint hs
  . exact (hJ.closed _).ends_primitive .bool hs
  . exact (hJ.closed _).ends_primitive .null hs
  . exact (hJ.closed _).ends_primitive .integer hs
  . exact (hJ.closed _).ends_primitive .double hs
  . exact alike_fail (hJ.fault hs)

theorem alike_intoReference (hJ : Upkeep document place.loc P J E) (text : String)
    (hint : NameHint) (hc : Tends (place.referenceEdges document text) P J E convert convert')
    (hs : J opened s) :
    Alike (intoReference convert text place hint) (intoReference convert' text place hint)
      (fun h t => P h ∧ J opened t) E s := by
  unfold intoReference
  apply alike_check_bind
  . exact fun _ _ => hJ.fault hs
  . intro reference hreference
    apply alike_state_bind
    rw [hJ.document hs]
    apply alike_check_bind
    . exact fun _ _ => hJ.fault hs
    . intro target htarget
      unfold Place.referenceEdges at hc
      rw [hreference] at hc
      dsimp only at hc
      rw [htarget] at hc
      exact hc _ (List.mem_cons_self ..) _ _ _ hs

theorem alike_namesWith (hJ : Upkeep document place.loc P J E)
    (hunify : ∀ opened, Upholds P (J opened) E unify unify') (hint : NameHint)
    {names : List String}
    (hc : Tends (place.typeEdges schema false (distinct names)) P J E convert convert')
    (hs : J opened s) :
    Alike (namesWith convert unify schema place.loc hint names)
      (namesWith convert' unify' schema place.loc hint names) (fun h t => P h ∧ J opened t) E s := by
  have hnamed : ∀ name ∈ distinct names, ∀ t, J opened t →
      Alike (intoNamed convert schema place.loc hint name)
        (intoNamed convert' schema place.loc hint name) (fun h t => P h ∧ J opened t) E t := by
    intro name hname t ht
    obtain ⟨covered, hsubset⟩ := place.exists_namedEdges_subset schema false hname
    exact hJ.alike_intoNamed hint name (hc.subset hsubset) ht
  unfold namesWith
  split
  . next name hnames =>
    rw [hnames] at hnamed
    exact hnamed name (List.mem_singleton_self _) s hs
  . apply (Unification.alike_collect _ _ _ hnamed hs).next
    rintro types t ⟨htypes, ht⟩
    exact hunify opened types hint place.loc t htypes ht

theorem alike_formWith (hJ : Upkeep document place.loc P J E)
    (hunify : ∀ opened, Upholds P (J opened) E unify unify') (hint : NameHint) {form : Form}
    (hc : Tends (place.formEdges document schema form) P J E convert convert')
    (hs : J opened s) :
    Alike (formWith convert unify schema place hint form)
      (formWith convert' unify' schema place hint form) (fun h t => P h ∧ J opened t) E s := by
  cases form with
  | reference text => exact hJ.alike_intoReference text hint hc hs
  | enum cases => exact (hJ.closed _).ends_enum hint cases hs
  | named names => exact hJ.alike_namesWith hunify hint hc hs
  | choice step nodes =>
    apply (Tends.alike_intoAlternatives step hint 0 hc hs).next
    rintro types t ⟨htypes, ht⟩
    exact hunify opened types hint place.loc t htypes ht
  | anything => exact (hJ.closed _).ends_primitive .any hs

theorem alike_schemaWith (hJ : Upkeep document place.loc P J E)
    (hunify : ∀ opened, Upholds P (J opened) E unify unify') (hint : NameHint)
    (hc : Tends (place.edges document) P J E convert convert') (hs : J opened s) :
    Alike (schemaWith convert unify place hint) (schemaWith convert' unify' place hint)
      (fun h t => P h ∧ J opened t) E s := by
  unfold schemaWith
  apply alike_check_bind
  . exact fun _ _ => hJ.fault hs
  . intro schema hschema
    apply alike_check_bind
    . exact fun _ _ => hJ.fault hs
    . intro form hform
      rw [Place.edges_of_form hschema hform] at hc
      exact hJ.alike_formWith hunify _ hc hs

end Upkeep

end Descent

end SchemaGraph
