import SchemaGraph.Proofs.Descent.Frame
import SchemaGraph.Proofs.Document.Forms

/-!
This module contains the order in which the conversion of one place asks for other places. It asks
along the edges of the place, one after the other, and all that it does to the state besides is to
unify types, to build nodes and to record a type for its own place. So an invariant that says which
edges are still to be followed is carried through a conversion once and for all. On the way the
graph stays sound, and what a conversion opens it fills in before it ends with a result.
-/

namespace SchemaGraph

namespace Descent

open Effect

/--
An invariant of the conversion of `place`, which begins with the graph `base`. It speaks about the
edges that are still to be followed, about whether the place is covered by a record or a map, and
about the state. A fault leaves `E`.
-/
structure Flow (document : Json) (place : Place) (base : Graph)
    (J : List Edge → Bool → State → Prop) (E : Fault → State → Prop) : Prop where
  keys : place.node.hasUniqueKeys = true
  valid {todo covered s} : J todo covered s → s.Valid document
  grows {todo covered s} : J todo covered s → base.Grows s.graph
  grown {todo covered s t} : J todo covered s → s.Grown t → J todo covered t
  opened {todo s r shape} : place.Opens → J todo false s → s.graph.Gives r shape →
    J todo true (State.recorded { s with graph := r.2 } place.loc r.1)
  filled {todo covered s h shape g} : J todo covered s → ¬base.Has h → s.graph.Fills h shape g →
    g.Sound → J todo covered { s with graph := g }
  fault {todo covered s fault} : J todo covered s → fault.isOrdinary = true → E fault s

def Follows (edges : List Edge) (J : List Edge → Bool → State → Prop) (E : Fault → State → Prop)
    (convert convert' : Convert) : Prop :=
  ∀ edge ∈ edges, ∀ todo hint s, J (edge :: todo) edge.covered s →
    Alike (convert edge.target.node edge.target.loc hint)
      (convert' edge.target.node edge.target.loc hint)
      (fun h t => Gained s [h] t ∧ J todo edge.covered t) E s

variable {document : Json} {place : Place} {base : Graph} {J : List Edge → Bool → State → Prop}
  {E : Fault → State → Prop} {convert convert' : Convert} {edges : List Edge} {todo : List Edge}
  {covered : Bool} {s : State} {schema : Schema}

theorem Flow.ends_build (hJ : Flow document place base J E) {make : Graph → Handle × Graph}
    (hbuilt : s.graph.Built (make s.graph).2) (hhas : (make s.graph).2.Has (make s.graph).1)
    (h : J todo covered s) :
    Ends (build make) (fun h t => Gained s [h] t ∧ J todo covered t) E s := by
  apply alike_build
  refine ⟨⟨hbuilt, ?_⟩, hJ.grown h (.build hbuilt)⟩
  intro h' hmem
  rwa [List.mem_singleton.1 hmem]

theorem Flow.ends_gives (hJ : Flow document place base J E) {make : Graph → Handle × Graph}
    {shape : Shape} (hgives : s.graph.Gives (make s.graph) shape) (hclosed : shape.isOpen = false)
    (h : J todo covered s) :
    Ends (build make) (fun h t => Gained s [h] t ∧ J todo covered t) E s :=
  hJ.ends_build (hgives.built hclosed) hgives.has h

theorem Flow.ends_primitive (hJ : Flow document place base J E) (kind : Primitive)
    (h : J todo covered s) :
    Ends (build fun g => g.addPrimitive kind) (fun h t => Gained s [h] t ∧ J todo covered t) E s :=
  hJ.ends_gives (Graph.gives_addPrimitive (hJ.valid h).sound kind) rfl h

theorem Flow.ends_enum (hJ : Flow document place base J E) (hint : NameHint) (cases : List String)
    (h : J todo covered s) :
    Ends (build fun g => g.addEnum hint cases) (fun h t => Gained s [h] t ∧ J todo covered t)
      E s := by
  obtain ⟨cases', -, hgives⟩ := Graph.gives_addEnum (hJ.valid h).sound hint cases
  exact hJ.ends_gives hgives rfl h

theorem Flow.ends_array (hJ : Flow document place base J E) {items : Handle}
    (hitems : s.graph.Has items) (h : J todo covered s) :
    Ends (build fun g => g.addArray items) (fun h t => Gained s [h] t ∧ J todo covered t) E s :=
  hJ.ends_gives (Graph.gives_addArray (hJ.valid h).sound hitems) rfl h

theorem Flow.ends_nullable (hJ : Flow document place base J E) {inner : Handle} (hint : NameHint)
    (hinner : s.graph.Has inner) (h : J todo covered s) :
    Ends (build fun g => g.addNullable inner hint) (fun h t => Gained s [h] t ∧ J todo covered t)
      E s := by
  have hbuilt := Graph.built_addNullable (hJ.valid h).sound hinner hint
  exact hJ.ends_build hbuilt.1 hbuilt.2 h

theorem alike_intoFields (hJ : Flow document place base J E) (required : List String)
    (fields : List (String × Json)) (hc : Follows (place.fieldEdges fields) J E convert convert')
    (h : J (place.fieldEdges fields ++ todo) true s) :
    Alike (intoFields convert required place.loc fields)
      (intoFields convert' required place.loc fields)
      (fun declared t => Gained s (declared.map Prod.snd) t ∧
        Entries.keys declared = Entries.keys fields ∧ J todo true t) E s := by
  induction fields generalizing s with
  | nil => exact alike_pure ⟨.nil (hJ.valid h).sound, rfl, h⟩
  | cons field rest ih =>
    obtain ⟨name, node⟩ := field
    -- The type may become nullable first, and that builds only.
    have hrest : ∀ type t, Gained s [type] t ∧ J (place.fieldEdges rest ++ todo) true t →
        Alike (intoFields convert required place.loc rest >>= fun declared =>
            pure ((name, type) :: declared))
          (intoFields convert' required place.loc rest >>= fun declared =>
            pure ((name, type) :: declared))
          (fun declared t => Gained s (declared.map Prod.snd) t ∧
            Entries.keys declared = Entries.keys ((name, node) :: rest) ∧ J todo true t) E t := by
      rintro type t ⟨htype, ht⟩
      apply (ih (fun edge hedge => hc edge (List.mem_cons_of_mem _ hedge)) ht).next
      rintro declared u ⟨hdeclared, hkeys, hu⟩
      refine alike_pure ⟨htype.cons hdeclared, ?_, hu⟩
      simp only [Entries.keys, List.map_cons, List.cons.injEq, true_and]
      exact hkeys
    have hfirst := hc _ (List.mem_cons_self ..) (place.fieldEdges rest ++ todo)
      (NameHint.inferred name) s h
    unfold intoFields
    apply hfirst.next
    rintro declared t ⟨hdeclared, ht⟩
    dsimp only
    split
    . rw [pure_bind, pure_bind]
      exact hrest declared t ⟨hdeclared, ht⟩
    . apply (hJ.ends_nullable _ (hdeclared.has _ (List.mem_singleton_self _)) ht).next
      rintro type u ⟨htype, hu⟩
      exact hrest type u ⟨hdeclared.after htype, hu⟩

theorem Flow.ends_fill (hJ : Flow document place base J E) {todo' : List Edge} {t : State}
    {r : Handle × Graph} {shape shape' : Shape} {complete : Graph → Except Fault Graph}
    (hs : J todo' covered s) (hgives : s.graph.Gives r shape) (hnew : ¬s.graph.Has r.1)
    (hbuilt : r.2.Built t.graph) (hclosed : shape'.isOpen = false)
    (hplain : Plain (complete t.graph))
    (hfills : ∀ g, complete t.graph = .ok g → t.graph.Fills r.1 shape' g ∧ g.Sound)
    (ht : J todo true t) :
    Ends (do
      fill complete
      return r.1) (fun h u => Gained s [h] u ∧ J todo true u) E t := by
  apply alike_fill_bind
  . exact fun fault hfault => hJ.fault ht (hplain fault hfault)
  . intro g hg
    obtain ⟨hfill, hsound⟩ := hfills g hg
    have hall := hgives.built_of_fills hnew hbuilt hfill hclosed hsound
    refine alike_pure ⟨⟨hall, ?_⟩, ?_⟩
    . intro h hmem
      rw [List.mem_singleton.1 hmem]
      exact hfill.evolves.has _ (hbuilt.grows.has _ hgives.has)
    . exact hJ.filled ht (fun hbase => hnew ((hJ.grows hs).has _ hbase)) hfill hsound

theorem alike_intoRecord (hJ : Flow document place base J E) (hopens : place.Opens)
    (properties : List (String × Json)) (hkeys : (Entries.keys properties).Nodup)
    (hint : NameHint) (hc : Follows (place.fieldEdges properties) J E convert convert')
    (h : J (place.fieldEdges properties ++ todo) false s) :
    Alike (intoRecord convert schema properties place.loc hint)
      (intoRecord convert' schema properties place.loc hint)
      (fun h t => Gained s [h] t ∧ J todo true t) E s := by
  unfold intoRecord
  apply alike_check_bind
  . intro fault hfault
    exact hJ.fault h (schema.plain_required _ fault hfault)
  . intro required _
    have hgives : s.graph.Gives (s.graph.addRecord hint .pending) (.record .pending) :=
      Graph.gives_addRecord (hJ.valid h).sound hint (fun _ hmem => nomatch hmem)
        (fun _ heq => nomatch heq)
    have hnew : ¬s.graph.Has (s.graph.addRecord hint .pending).1 := Graph.not_has_push _ _
    apply (alike_build (Q := fun h t => h = (s.graph.addRecord hint .pending).1 ∧
      t = { s with graph := (s.graph.addRecord hint .pending).2 }) ⟨rfl, rfl⟩).next
    generalize s.graph.addRecord hint .pending = r at hgives hnew
    rintro _ _ ⟨rfl, rfl⟩
    apply alike_change_bind
    apply (alike_intoFields hJ required properties hc (hJ.opened hopens h hgives)).next
    rintro fields t ⟨hfields, hnames, ht⟩
    apply hJ.ends_fill h hgives hnew hfields.toBuilt _ (Graph.plain_fillRecord _ _ _) _ ht
    . exact .record (.filled fields)
    . rfl
    . intro g hfill
      refine ⟨Graph.fills_fillRecord hfill, hfields.sound.fillRecord ?_ ?_ hfill⟩
      . exact fun field hfield => hfields.has _ (List.mem_map_of_mem hfield)
      . rwa [hnames]

theorem alike_intoMap (hJ : Flow document place base J E) (hopens : place.Opens) (values : Json)
    (hint : NameHint) {edge : Edge}
    (hedge : edge = ⟨.values, true, ⟨values, place.loc.child .additionalProperties⟩⟩)
    (hc : Follows [edge] J E convert convert') (h : J (edge :: todo) false s) :
    Alike (intoMap convert values place.loc hint) (intoMap convert' values place.loc hint)
      (fun h t => Gained s [h] t ∧ J todo true t) E s := by
  subst hedge
  unfold intoMap
  have hgives : s.graph.Gives s.graph.addOpenMap (.map .pending) :=
    Graph.gives_addOpenMap (hJ.valid h).sound
  have hnew : ¬s.graph.Has s.graph.addOpenMap.1 := Graph.not_has_push _ _
  apply (alike_build (Q := fun h t => h = s.graph.addOpenMap.1 ∧
    t = { s with graph := s.graph.addOpenMap.2 }) ⟨rfl, rfl⟩).next
  generalize s.graph.addOpenMap = r at hgives hnew
  rintro _ _ ⟨rfl, rfl⟩
  apply alike_change_bind
  apply (hc _ (List.mem_cons_self ..) todo hint.singular _ (hJ.opened hopens h hgives)).next
  rintro type t ⟨htype, ht⟩
  apply hJ.ends_fill h hgives hnew htype.toBuilt _ (Graph.plain_fillMap _ _ _) _ ht
  . exact .map (.filled type)
  . rfl
  . intro g hfill
    refine ⟨Graph.fills_fillMap hfill, htype.sound.fillMap ?_ hfill⟩
    exact htype.has type (List.mem_singleton_self _)

theorem alike_intoObject (hJ : Flow document place base J E)
    (hschema : Schema.ofJson place.node place.loc = .ok schema)
    (hopens : place.opens schema "object" = true → place.Opens ∧ covered = false)
    (hint : NameHint)
    (hc : Follows (place.objectEdges schema) J E convert convert')
    (h : J (place.objectEdges schema ++ todo) covered s) :
    Alike (intoObject convert schema place.loc hint) (intoObject convert' schema place.loc hint)
      (fun h t => Gained s [h] t ∧ J todo (covered || place.opens schema "object") t) E s := by
  have hplain : J todo covered s → Ends (do
      let any ← build fun g => g.addPrimitive .any
      build fun g => g.addMap any) (fun h t => Gained s [h] t ∧ J todo covered t) E s := by
    intro h
    apply (hJ.ends_primitive .any h).next
    rintro any t ⟨hany, ht⟩
    have hgives := Graph.gives_addMap hany.sound (hany.has any (List.mem_singleton_self _))
    apply (hJ.ends_gives hgives rfl ht).mono _ (fun _ _ => id)
    rintro map u ⟨hmap, hu⟩
    exact ⟨hany.after hmap, hu⟩
  unfold intoObject
  apply alike_check_bind
  . intro fault hfault
    exact hJ.fault h (schema.plain_properties? _ fault hfault)
  . intro properties? hproperties
    unfold Place.objectEdges at hc h
    unfold Place.opens at hopens ⊢
    rw [hproperties] at hc h hopens ⊢
    cases properties? with
    | some properties =>
      simp only [decide_true, Bool.and_true, Bool.or_true]
      obtain ⟨hplace, rfl⟩ := hopens rfl
      have hget := Schema.properties?_eq_some hproperties
      rw [Schema.get?_of_ofJson hschema] at hget
      have hkeys := Json.hasUniqueKeys_of_field? hJ.keys hget
      exact alike_intoRecord hJ hplace properties (Json.hasUniqueKeys_object_iff.1 hkeys).1 hint
        hc h
    | none =>
      simp only [decide_true, Bool.true_and] at hc h hopens ⊢
      cases hadditional : schema.additional? with
      | none =>
        simp only [hadditional, List.nil_append, Bool.or_false] at h ⊢
        exact hplain h
      | some additional =>
        cases additional with
        | allowed =>
          simp only [hadditional, List.nil_append, Bool.or_false] at h ⊢
          exact hplain h
        | forbidden =>
          simp only [hadditional, List.nil_append, Bool.or_false] at h ⊢
          have hgives : s.graph.Gives (s.graph.addRecord hint (.filled []))
              (.record (.filled [])) := by
            apply Graph.gives_addRecord (hJ.valid h).sound hint
            . intro child hmem
              cases hmem
            . rintro content ⟨⟩
              exact List.nodup_nil
          exact hJ.ends_gives hgives rfl h
        | schema values =>
          simp only [hadditional, Bool.or_true, List.cons_append, List.nil_append] at hc h ⊢
          obtain ⟨hplace, rfl⟩ := hopens (by rw [hadditional])
          exact alike_intoMap hJ hplace values hint rfl hc h

theorem alike_intoArray (hJ : Flow document place base J E) (hint : NameHint)
    (hc : Follows (place.itemEdges schema covered) J E convert convert')
    (h : J (place.itemEdges schema covered ++ todo) covered s) :
    Alike (intoArray convert schema place.loc hint) (intoArray convert' schema place.loc hint)
      (fun h t => Gained s [h] t ∧ J todo covered t) E s := by
  have harray : ∀ items t, Gained s [items] t ∧ J todo covered t →
      Ends (build fun g => g.addArray items) (fun h u => Gained s [h] u ∧ J todo covered u)
        E t := by
    rintro items t ⟨hitems, ht⟩
    apply (hJ.ends_array (hitems.has items (List.mem_singleton_self _)) ht).mono _
      (fun _ _ => id)
    rintro array u ⟨harray, hu⟩
    exact ⟨hitems.after harray, hu⟩
  unfold intoArray
  apply alike_check_bind
  . intro fault hfault
    exact hJ.fault h (schema.plain_items? _ fault hfault)
  . intro items? hitems
    unfold Place.itemEdges at hc h
    rw [hitems] at hc h
    cases items? with
    | none => exact (hJ.ends_primitive .any h).next harray
    | some node => exact (hc _ (List.mem_cons_self ..) todo hint.singular _ h).next harray

theorem ends_intoString (hJ : Flow document place base J E) (hint : NameHint)
    (h : J todo covered s) :
    Ends (intoString schema place.loc hint) (fun h t => Gained s [h] t ∧ J todo covered t) E s := by
  unfold intoString
  split
  . exact hJ.ends_gives (Graph.gives_addString (hJ.valid h).sound hint) rfl h
  . exact hJ.ends_primitive .date h
  . exact hJ.ends_primitive .time h
  . exact hJ.ends_primitive .dateTime h
  . exact alike_fail (hJ.fault h rfl)

theorem alike_intoNamed (hJ : Flow document place base J E)
    (hschema : Schema.ofJson place.node place.loc = .ok schema) (hint : NameHint) (name : String)
    (hopens : place.opens schema name = true → place.Opens ∧ covered = false)
    (hc : Follows (place.namedEdges schema covered name) J E convert convert')
    (h : J (place.namedEdges schema covered name ++ todo) covered s) :
    Alike (intoNamed convert schema place.loc hint name)
      (intoNamed convert' schema place.loc hint name)
      (fun h t => Gained s [h] t ∧ J todo (covered || place.opens schema name) t) E s := by
  unfold Place.namedEdges at hc h
  by_cases harray : name = "array"
  . subst harray
    have hopens : place.opens schema "array" = false := rfl
    rw [hopens, Bool.or_false]
    exact alike_intoArray hJ hint hc h
  . by_cases hobject : name = "object"
    . subst hobject
      exact alike_intoObject hJ hschema hopens hint hc h
    . -- The types besides arrays and objects lead nowhere.
      have hopens : place.opens schema name = false := by
        unfold Place.opens
        simp [hobject]
      rw [hopens, Bool.or_false]
      simp only [harray, hobject, if_false, List.nil_append] at h
      unfold intoNamed
      split
      . contradiction
      . contradiction
      . exact ends_intoString hJ hint h
      . exact hJ.ends_primitive .bool h
      . exact hJ.ends_primitive .null h
      . exact hJ.ends_primitive .integer h
      . exact hJ.ends_primitive .double h
      . exact alike_fail (hJ.fault h rfl)

theorem alike_collect_intoNamed (hJ : Flow document place base J E)
    (hschema : Schema.ofJson place.node place.loc = .ok schema) (hint : NameHint)
    (names : List String) (hnames : names.Nodup)
    (hopens : ∀ name ∈ names, place.opens schema name = true → place.Opens ∧ covered = false)
    (hc : Follows (place.typeEdges schema covered names) J E convert convert')
    (h : J (place.typeEdges schema covered names ++ todo) covered s) :
    Alike (collect (names.map fun name => intoNamed convert schema place.loc hint name))
      (collect (names.map fun name => intoNamed convert' schema place.loc hint name))
      (fun types t => Gained s types t ∧ ∃ covered, J todo covered t) E s := by
  induction names generalizing covered s with
  | nil => exact alike_pure ⟨.nil (hJ.valid h).sound, covered, h⟩
  | cons name rest ih =>
    unfold Place.typeEdges at hc h
    rw [List.append_assoc] at h
    have hfirst := alike_intoNamed hJ hschema hint name (hopens name (List.mem_cons_self ..))
      (fun edge hedge => hc edge (List.mem_append_left _ hedge)) h
    have hrest : ∀ name' ∈ rest, place.opens schema name' = true →
        place.Opens ∧ (covered || place.opens schema name) = false := by
      intro name' hmem h
      obtain ⟨hplace, hcovered⟩ := hopens name' (List.mem_cons_of_mem _ hmem) h
      refine ⟨hplace, ?_⟩
      -- There is one name that opens, and it is not there twice.
      rw [hcovered, Bool.false_or, Bool.eq_false_iff]
      intro hfirst
      rw [Place.name_of_opens h] at hmem
      rw [Place.name_of_opens hfirst] at hnames
      exact (List.nodup_cons.1 hnames).1 hmem
    apply hfirst.next
    rintro type t ⟨htype, ht⟩
    apply (ih (List.nodup_cons.1 hnames).2 hrest
      (fun edge hedge => hc edge (List.mem_append_right _ hedge)) ht).next
    rintro types u ⟨htypes, hu⟩
    exact alike_pure ⟨htype.cons htypes, hu⟩

theorem ends_unify_of_flow (hJ : Flow document place base J E) {t : State} {types : List Handle}
    (hint : NameHint) (htypes : Gained s types t) (ht : ∃ covered, J todo covered t) :
    Ends (Unification.unify types hint place.loc)
      (fun h u => Gained s [h] u ∧ ∃ covered, J todo covered u) E t := by
  obtain ⟨covered, ht⟩ := ht
  apply (Unification.builds_unify hint place.loc htypes.sound htypes.has).mono
  . rintro h u ⟨hgrown, hhas⟩
    refine ⟨htypes.after ⟨hgrown.graph, ?_⟩, covered, hJ.grown ht hgrown⟩
    intro h' hmem
    rwa [List.mem_singleton.1 hmem]
  . rintro fault u ⟨hgrown, hfault⟩
    exact hJ.fault (hJ.grown ht hgrown) hfault

theorem alike_intoNames (hJ : Flow document place base J E)
    (hschema : Schema.ofJson place.node place.loc = .ok schema) (hint : NameHint)
    {names : List String} (hform : schema.form place.loc = .ok (.named names))
    (hc : Follows (place.typeEdges schema false (distinct names)) J E convert convert')
    (h : J (place.typeEdges schema false (distinct names) ++ todo) false s) :
    Alike (intoNames convert schema place.loc hint names)
      (intoNames convert' schema place.loc hint names)
      (fun h t => Gained s [h] t ∧ ∃ covered, J todo covered t) E s := by
  have hopens : ∀ name ∈ distinct names, place.opens schema name = true →
      place.Opens ∧ false = false :=
    fun name hname h => ⟨⟨schema, names, hschema, hform, name, mem_distinct.1 hname, h⟩, rfl⟩
  unfold intoNames
  split
  . next name hnames =>
    rw [hnames] at hc h hopens
    simp only [Place.typeEdges, List.append_nil] at hc h
    apply (alike_intoNamed hJ hschema hint name (hopens name (List.mem_singleton_self _)) hc h).mono
      _ (fun _ _ => id)
    exact fun _ _ ht => ⟨ht.1, _, ht.2⟩
  . apply (alike_collect_intoNamed hJ hschema hint _ (nodup_distinct _) hopens hc h).next
    rintro types t ⟨htypes, ht⟩
    exact ends_unify_of_flow hJ hint htypes ht

theorem alike_intoAlternatives (hJ : Flow document place base J E) (step : Nat → Step)
    (hint : NameHint) (index : Nat) (nodes : List Json)
    (hc : Follows (place.choiceEdges step index nodes) J E convert convert')
    (h : J (place.choiceEdges step index nodes ++ todo) false s) :
    Alike (intoAlternatives convert step place.loc hint index nodes)
      (intoAlternatives convert' step place.loc hint index nodes)
      (fun types t => Gained s types t ∧ J todo false t) E s := by
  induction nodes generalizing index s with
  | nil => exact alike_pure ⟨.nil (hJ.valid h).sound, h⟩
  | cons node rest ih =>
    have hfirst := hc _ (List.mem_cons_self ..) (place.choiceEdges step (index + 1) rest ++ todo)
      hint.weaken s h
    unfold intoAlternatives
    apply hfirst.next
    rintro type t ⟨htype, ht⟩
    apply (ih _ (fun edge hedge => hc edge (List.mem_cons_of_mem _ hedge)) ht).next
    rintro types u ⟨htypes, hu⟩
    exact alike_pure ⟨htype.cons htypes, hu⟩

theorem alike_intoChoice (hJ : Flow document place base J E) (step : Nat → Step) (hint : NameHint)
    (nodes : List Json) (hc : Follows (place.choiceEdges step 0 nodes) J E convert convert')
    (h : J (place.choiceEdges step 0 nodes ++ todo) false s) :
    Alike (intoChoice convert step place.loc hint nodes)
      (intoChoice convert' step place.loc hint nodes)
      (fun h t => Gained s [h] t ∧ ∃ covered, J todo covered t) E s := by
  unfold intoChoice
  apply (alike_intoAlternatives hJ step hint 0 nodes hc h).next
  rintro types t ⟨htypes, ht⟩
  exact ends_unify_of_flow hJ hint htypes ⟨false, ht⟩

theorem alike_intoReference (hJ : Flow document place base J E) (text : String) (hint : NameHint)
    (hc : Follows (place.referenceEdges document text) J E convert convert')
    (h : J (place.referenceEdges document text ++ todo) false s) :
    Alike (intoReference convert text place hint) (intoReference convert' text place hint)
      (fun h t => Gained s [h] t ∧ ∃ covered, J todo covered t) E s := by
  unfold intoReference
  apply alike_check_bind
  . intro fault hfault
    exact hJ.fault h (Reference.plain_ofText text fault hfault)
  . intro reference hreference
    apply alike_state_bind
    rw [(hJ.valid h).document]
    apply alike_check_bind
    . intro fault hfault
      exact hJ.fault h (place.plain_resolve _ _ fault hfault)
    . intro target htarget
      unfold Place.referenceEdges at hc h
      rw [hreference] at hc h
      dsimp only at hc h
      rw [htarget] at hc h
      have hfirst := hc _ (List.mem_cons_self ..) todo
        (if hint.isInferred then .explicit reference.name else hint) s h
      exact hfirst.mono (fun _ t ht => ⟨ht.1, false, ht.2⟩) (fun _ _ => id)

theorem alike_intoForm (hJ : Flow document place base J E)
    (hschema : Schema.ofJson place.node place.loc = .ok schema) (hint : NameHint)
    {form : Form} (hform : schema.form place.loc = .ok form)
    (hc : Follows (place.formEdges document schema form) J E convert convert')
    (h : J (place.formEdges document schema form ++ todo) false s) :
    Alike (intoForm convert schema place hint form) (intoForm convert' schema place hint form)
      (fun h t => Gained s [h] t ∧ ∃ covered, J todo covered t) E s := by
  cases form with
  | reference text => exact alike_intoReference hJ text hint hc h
  | enum cases =>
    unfold intoForm
    exact (hJ.ends_enum hint cases h).mono (fun _ _ ht => ⟨ht.1, false, ht.2⟩) (fun _ _ => id)
  | named names => exact alike_intoNames hJ hschema hint hform hc h
  | choice step nodes => exact alike_intoChoice hJ step hint nodes hc h
  | anything =>
    unfold intoForm
    exact (hJ.ends_primitive .any h).mono (fun _ _ ht => ⟨ht.1, false, ht.2⟩) (fun _ _ => id)

theorem alike_intoSchema (hJ : Flow document place base J E) (hint : NameHint)
    (hc : Follows (place.edges document) J E convert convert')
    (h : J (place.edges document) false s) :
    Alike (intoSchema convert place.node place.loc hint)
      (intoSchema convert' place.node place.loc hint)
      (fun h t => Gained s [h] t ∧ ∃ covered, J [] covered t) E s := by
  rw [intoSchema_eq, intoSchema_eq]
  apply alike_check_bind
  . intro fault hfault
    exact hJ.fault h (Schema.plain_ofJson _ _ fault hfault)
  . intro schema hschema
    apply alike_check_bind
    . intro fault hfault
      exact hJ.fault h (schema.plain_form _ fault hfault)
    . intro form hform
      rw [Place.edges_of_form hschema hform] at hc h
      exact alike_intoForm hJ hschema _ hform hc (by rwa [List.append_nil])

end Descent

end SchemaGraph
