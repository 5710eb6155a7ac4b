import SchemaGraph.Proofs.Descent.Addressing
import SchemaGraph.Proofs.Descent.Pace
import SchemaGraph.Proofs.Document.Blame
import SchemaGraph.Proofs.Session.Upheld

/-!
This module contains what explains the faults of a conversion, whatever state it begins in: the
types that are unified, a recursion, or a schema that is read on the way. In the conversion of a
whole document the schema that a fault blames stands at the location that the fault carries.
-/

namespace SchemaGraph

def Event.dispatched? : Event → Option Place
  | .entered loc node => some ⟨node, loc⟩
  | .reentered loc node _ => some ⟨node, loc⟩
  | _ => none

def State.Dispatched (base s : State) (place : Place) : Prop :=
  ∃ news, s.journal = news ++ base.journal ∧ ∃ event ∈ news, event.dispatched? = some place

/--
What a fault of a conversion comes from, which began in `base` and has come to `s`.
-/
inductive State.Explains (base s : State) : Fault → Prop
  | types {fault : Fault} (h : fault.isOfTypes = true) : Explains base s fault
  | endlessReference (loc : Location) :
    Explains base s (.unresolvedRecursion .endlessReference loc)
  | endlessDescent (loc : Location) : Explains base s (.endlessDescent loc)
  | raised {place : Place} {fault : Fault} (hplace : base.Dispatched s place)
    (h : place.Raises base.document fault) : Explains base s fault

namespace State

variable {base s t : State} {place : Place} {fault : Fault}

theorem dispatched_begun (s : State) (place : Place) : s.Dispatched (s.begun place) place := by
  unfold begun
  split
  . exact ⟨[_, _], rfl, _, List.mem_cons_self .., rfl⟩
  . exact ⟨[_, _], rfl, _, List.mem_cons_self .., rfl⟩

theorem Dispatched.later (h : base.Dispatched s place) (hst : s.journal <:+ t.journal) :
    base.Dispatched t place := by
  obtain ⟨news, hnews, event, hmem, hevent⟩ := h
  obtain ⟨more, hmore⟩ := hst
  refine ⟨more ++ news, ?_, event, List.mem_append_right _ hmem, hevent⟩
  rw [← hmore, hnews, List.append_assoc]

theorem Dispatched.earlier (h : s.Dispatched t place) (hbase : base.journal <:+ s.journal) :
    base.Dispatched t place := by
  obtain ⟨news, hnews, event, hmem, hevent⟩ := h
  obtain ⟨old, hold⟩ := hbase
  refine ⟨news ++ old, ?_, event, List.mem_append_left _ hmem, hevent⟩
  rw [hnews, ← hold, List.append_assoc]

theorem Explains.later (h : base.Explains s fault) (hst : s.journal <:+ t.journal) :
    base.Explains t fault := by
  cases h with
  | types h => exact .types h
  | endlessReference loc => exact .endlessReference loc
  | endlessDescent loc => exact .endlessDescent loc
  | raised hplace h => exact .raised (hplace.later hst) h

theorem Explains.earlier (h : s.Explains t fault) (hbase : base.journal <:+ s.journal)
    (hdocument : s.document = base.document) : base.Explains t fault := by
  cases h with
  | types h => exact .types h
  | endlessReference loc => exact .endlessReference loc
  | endlessDescent loc => exact .endlessDescent loc
  | raised hplace h =>
    rw [hdocument] at h
    exact .raised (hplace.earlier hbase) h

end State

structure State.Holds (base : State) (opened : List Leaf) (s : State) : Prop
    extends base.Upheld (opened.map Prod.fst) s where
  distinct : (opened.map Prod.fst).Nodup
  shapes : ∀ leaf ∈ opened, s.graph.shape? leaf.1 = some leaf.2

namespace State.Holds

variable {base s t : State} {opened : List Leaf}

theorem refl (hs : s.graph.Tabled) : s.Holds [] s :=
  ⟨.refl hs, List.nodup_nil, fun _ hmem => nomatch hmem⟩

theorem later (hs : base.Holds opened s) (ht : s.Upheld [] t) : base.Holds opened t where
  toUpheld := hs.toUpheld.trans ht
  distinct := hs.distinct
  shapes leaf hleaf := ht.graph _ _ (hs.shapes leaf hleaf)

theorem push (hs : base.Holds opened s) (node : Node) :
    base.Holds (((s.graph.push node).1, node.shape) :: opened)
      { s with graph := (s.graph.push node).2 } where
  toUpheld := hs.toUpheld.push node
  distinct := by
    refine List.nodup_cons.2 ⟨?_, hs.distinct⟩
    intro hmem
    obtain ⟨leaf, hleaf, heq⟩ := List.mem_map.1 hmem
    have hhas := Graph.has_of_shape? (hs.shapes leaf hleaf)
    rw [heq] at hhas
    exact Graph.not_has_push s.graph node hhas
  shapes := by
    refine List.forall_mem_cons.2 ⟨Graph.shape?_push_self s.graph node, ?_⟩
    exact fun leaf hleaf => Graph.grows_push s.graph node _ _ (hs.shapes leaf hleaf)

theorem recorded (hs : base.Holds opened s) {loc : Location} (hunknown : ¬base.Knows loc)
    (h : Handle) : base.Holds opened (s.recorded loc h) :=
  ⟨hs.toUpheld.recorded hunknown h, hs.distinct, hs.shapes⟩

theorem filled {h : Handle} {before after : Shape} (hs : base.Holds ((h, before) :: opened) s)
    (hopen : before.isOpen = true) (hclosed : after.isOpen = false) :
    base.Holds opened { s with graph := s.graph.setShape h after } where
  toUpheld := by
    have hshape := hs.shapes _ (List.mem_cons_self ..)
    exact hs.toUpheld.setShape ⟨before, hshape, hopen⟩ hclosed
  distinct := (List.nodup_cons.1 hs.distinct).2
  shapes leaf hleaf := by
    have hhas := Graph.has_of_shape? (hs.shapes _ (List.mem_cons_self ..))
    have hne : leaf.1 ≠ h := by
      rintro rfl
      exact (List.nodup_cons.1 hs.distinct).1 (List.mem_map.2 ⟨leaf, hleaf, rfl⟩)
    dsimp only
    rw [Graph.shape?_setShape _ _ _ _ hhas, if_neg hne]
    exact hs.shapes leaf (List.mem_cons_of_mem _ hleaf)

end State.Holds

open Effect

theorem Unification.pace_single : Pace True Eq
    (fun fault t t' => t = t' ∧ fault.isOfTypes = true) where
  shapes := by
    rintro s _ rfl h
    rfl
  share := by
    rintro s _ key hint hint' rfl hhint - -
    rw [hhint trivial]
    exact ⟨rfl, rfl⟩
  record := by
    rintro s _ hint hint' fields rfl hhint
    rw [hhint trivial]
  merged := by
    rintro s _ loc records rfl
    rfl
  joined := by
    rintro s _ loc reads rfl
    rfl
  fault := fun hs hfault => ⟨hs, hfault⟩

theorem Unification.pace_holds (base s : State) (opened : List Leaf) :
    Pace True (fun t t' => t = t' ∧ base.Holds opened t)
      (fun fault t t' => t = t' ∧ s.Explains t fault) where
  shapes := by
    rintro t _ ⟨rfl, -⟩ h
    rfl
  share := by
    rintro t _ key hint hint' ⟨rfl, ht⟩ hhint hsome -
    rw [← hhint trivial]
    exact ⟨rfl, rfl, ht.later ((State.Upheld.refl ht.tabled).share hsome)⟩
  record := by
    rintro t _ hint hint' fields ⟨rfl, ht⟩ hhint
    rw [← hhint trivial]
    exact ⟨rfl, ht.later ((State.Upheld.refl ht.tabled).record hint fields)⟩
  merged := by
    rintro t _ loc records ⟨rfl, ht⟩
    exact ⟨rfl, ht.later ((State.Upheld.refl ht.tabled).note _)⟩
  joined := by
    rintro t _ loc reads ⟨rfl, ht⟩
    exact ⟨rfl, ht.later ((State.Upheld.refl ht.tabled).note _)⟩
  fault hs hfault := ⟨hs.1, .types hfault⟩

namespace Descent

theorem pace_single {s : State} {place : Place} (hunknown : ¬s.Knows place.loc) :
    Pace True s.document s.document place.loc (place.Raises s.document)
      (fun opened t t' => t = t' ∧ (s.begun place).Holds opened t)
      (fun fault t t' => t = t' ∧ s.Explains t fault) where
  unifying opened := Unification.pace_holds (s.begun place) s opened
  document := by
    rintro opened t _ ⟨rfl, ht⟩
    have hdocument := ht.document.trans (s.begun_document place)
    exact ⟨hdocument, hdocument⟩
  push := by
    rintro opened t _ shape hint hint' ⟨rfl, ht⟩ - hhint
    rw [hhint trivial]
    refine ⟨rfl, (ht.push _).recorded ?_ _⟩
    rwa [State.knows_begun]
  filled := by
    rintro opened t _ h before after ⟨rfl, ht⟩ - hopen hclosed
    exact ⟨rfl, ht.filled hopen hclosed⟩
  slot := by
    rintro opened t _ leaf ⟨rfl, ht⟩ hshape
    exact absurd (ht.shapes leaf (List.mem_cons_self ..)) hshape
  fault := by
    rintro opened t _ fault ⟨rfl, ht⟩ hfault
    exact ⟨rfl, .raised ((s.dispatched_begun place).later ht.journal) hfault⟩

theorem inPace_single {convert : Convert} {s base : State}
    (hc : ∀ (place : Place) hint t, t.graph.Tabled →
      Ends (convert place.node place.loc hint) (fun _ u => t.Upheld [] u)
        (fun fault u => t.Explains u fault) t)
    (hbase : s.journal <:+ base.journal) (hdocument : base.document = s.document) :
    InPace True Eq (fun opened t t' => t = t' ∧ base.Holds opened t)
      (fun fault t t' => t = t' ∧ s.Explains t fault) convert convert := by
  rintro node _ loc hint hint' opened t _ rfl hhint ⟨rfl, ht⟩
  rw [← hhint trivial]
  have hends := hc ⟨node, loc⟩ hint t ht.tabled
  apply hends.abreast.mono
  . rintro h u _ ⟨rfl, hu⟩
    exact ⟨rfl, ht.later hu⟩
  . rintro fault u _ ⟨rfl, hu⟩
    exact ⟨rfl, hu.earlier (hbase.trans ht.journal) (ht.document.trans hdocument)⟩

theorem explains_convertWithin (depth : Nat) (place : Place) (hint : NameHint) {s : State}
    (hs : s.graph.Tabled) :
    Ends (convertWithin depth place.node place.loc hint) (fun _ t => s.Upheld [] t)
      (fun fault t => s.Explains t fault) s := by
  induction depth generalizing place hint s with
  | zero => exact alike_fail (.endlessDescent place.loc)
  | succ depth ih =>
    have hvisit : Ends (visit place (intoSchema (convertWithin depth) place.node place.loc hint))
        (fun _ _ => True) (fun fault t => s.Explains t fault) s := by
      apply alike_visit
      . exact fun _ _ => trivial
      . exact fun _ _ _ => .endlessReference place.loc
      . intro hunknown _
        have hnested := inPace_single (fun place hint t ht => ih place hint ht)
          (s.suffix_begun place) (s.begun_document place)
        have hbegun : (s.begun place).Holds [] (s.begun place) := by
          apply State.Holds.refl
          rwa [s.begun_graph]
        have hhint : True → hint = hint := fun _ => rfl
        have hschema := (pace_single hunknown).abreast_intoSchema hnested rfl
          (place.tied_self s.document) hhint [] ⟨rfl, hbegun⟩
        apply hschema.alike.mono
        . exact fun _ _ _ => trivial
        . exact fun _ t ht => ht.later (t.suffix_ended _ _)
    exact ((spares_convertWithin (depth + 1) place hint s hs).and hvisit).mono
      (fun _ _ h => h.1.1) fun _ _ h => h.2

theorem explains_convert (place : Place) (hint : NameHint) {s : State} (hs : s.graph.Tabled) :
    Ends (convert place.node place.loc hint) (fun _ t => s.Upheld [] t)
      (fun fault t => s.Explains t fault) s := by
  unfold convert
  apply alike_state_bind
  exact explains_convertWithin _ place hint hs

end Descent

theorem Event.dispatched?_place? {event : Event} {place : Place}
    (h : event.dispatched? = some place) : event.place? = some place := by
  cases event with
  | entered loc node => exact h
  | reentered loc node memo => exact h
  | _ => cases h

namespace Conversion

variable {document : Json} {options : Options} {fault : Fault}

theorem addressed_of_dispatched (hkeys : document.hasUniqueKeys = true) (options : Options)
    {place : Place} (h : (State.start document).Dispatched (run document options).2 place) :
    Addressed document place := by
  obtain ⟨news, hnews, event, hmem, hevent⟩ := h
  refine located_run hkeys options event ?_ place (Event.dispatched?_place? hevent)
  rw [hnews]
  exact List.mem_append_left _ hmem

theorem ofDocument_eq_error_iff :
    ofDocument document options = .error fault ↔ (run document options).1 = .error fault := by
  unfold ofDocument
  rcases run document options with ⟨fault' | root, t⟩ <;> simp

theorem blames_of_error (hkeys : document.hasUniqueKeys = true)
    (h : ofDocument document options = .error fault) (hkind : fault.isOfSchema = true) :
    ∃ node loc, Place.resolve document ⟨document, .root⟩ loc = .ok ⟨node, loc⟩ ∧
      fault.Blames node loc ∧ ∃ before after, fault.message = before ++ loc.text ++ after := by
  have hexplained : (State.start document).Explains (run document options).2 fault := by
    have hends := Descent.explains_convert ⟨document, .root⟩ (.inferred options.rootName)
      (s := .start document) Graph.tabled_empty
    rw [ofDocument_eq_error_iff] at h
    exact hends.error (Prod.ext h rfl)
  cases hexplained with
  | types htypes => cases fault <;> simp [Fault.isOfSchema, Fault.isOfTypes] at hkind htypes
  | endlessReference loc => cases hkind
  | endlessDescent loc => cases hkind
  | raised hplace hraises =>
    have haddressed := addressed_of_dispatched hkeys options hplace
    rcases hraises.cases with ⟨text, rfl⟩ | ⟨rfl, -⟩ | ⟨taken, ⟨node, loc⟩, hwalk, hblames⟩
    . cases hkind
    . cases hkind
    . exact ⟨node, loc, (haddressed.walk hwalk).resolves, hblames, hblames.message⟩

def stuckDocument : Json :=
  .object [
    ("$ref", .string "#/definitions/outer/definitions/inner"),
    ("definitions", .object [("outer", .object [("type", .string "string")])])]

theorem run_stuckDocument : (run stuckDocument {}).1 =
    .error (.noDefinition "inner" ⟨[.root, .definition "outer"]⟩) := by
  decide +kernel

theorem blames_of_error_stuck :
    ofDocument stuckDocument {} =
        .error (.noDefinition "inner" ⟨[.root, .definition "outer"]⟩) ∧
      ∃ node loc, Place.resolve stuckDocument ⟨stuckDocument, .root⟩ loc = .ok ⟨node, loc⟩ ∧
        (Fault.noDefinition "inner" ⟨[.root, .definition "outer"]⟩).Blames node loc ∧
        ∃ before after, (Fault.noDefinition "inner" ⟨[.root, .definition "outer"]⟩).message =
          before ++ loc.text ++ after := by
  have hfault := ofDocument_eq_error_iff.2 run_stuckDocument
  exact ⟨hfault, blames_of_error (by decide) hfault rfl⟩

end Conversion

end SchemaGraph
