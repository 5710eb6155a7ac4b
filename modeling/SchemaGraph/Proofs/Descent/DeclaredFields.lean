import SchemaGraph.Proofs.Descent.Requests
import SchemaGraph.Proofs.Descent.Visits
import SchemaGraph.Proofs.Document.Blame
import SchemaGraph.Proofs.Session.Blame
import SchemaGraph.Proofs.Session.Interning

/-!
This module contains the proof that declared fields become exactly the fields of a record. The
record can be seen, and referred to, before it has its fields. But the schema of a field is asked
for from its record only, and not any more once the record has been converted. So the types that
the fields were given are the ones that stay recorded.
-/

namespace SchemaGraph

def Json.Requires (node : Json) (name : String) : Prop :=
  ∃ names, node.field? Keyword.required.text = some (.array names) ∧ .string name ∈ names

theorem Json.namesType_iff {node : Json} {name name' : String}
    (h : node.field? Keyword.type.text = some (.string name)) :
    node.NamesType name' ↔ name' = name := by
  unfold Json.NamesType
  rw [h]
  simp [eq_comm]

structure Place.IsRecord (place : Place) (nodes : Entries String Json) : Prop where
  reference : place.node.field? Keyword.reference.text = none
  enum : place.node.field? Keyword.enum.text = none
  type name : place.node.NamesType name ↔ name = "object"
  properties : place.node.field? Keyword.properties.text = some (.object nodes)

inductive Graph.MakesNullable (g : Graph) (h : Handle) : Handle → Prop where
  | itself {shape : Shape} (hshape : g.shape? h = some shape)
    (hnull : admitsNull shape = true) : MakesNullable g h h
  | wrapped {r : Handle} (hshape : g.shape? r = some (.nullable h)) : MakesNullable g h r

def Graph.FieldOf (g : Graph) (required : Prop) (declared type : Handle) : Prop :=
  (required → type = declared) ∧ (¬required → g.MakesNullable declared type)

structure State.Declares (s : State) (loc : Location) (required : String → Prop)
    (nodes : Entries String Json) (fields : Fields) : Prop where
  keys : Entries.keys fields = nodes.keys
  field {name type} : (name, type) ∈ fields → ∃ declared,
    s.memo.get? (loc.child (.property name)) = some declared ∧
      s.graph.FieldOf (required name) declared type

def State.HasRecord (s : State) (place : Place) (nodes : Entries String Json) (h : Handle) : Prop :=
  ∃ fields, s.graph.shape? h = some (.record (.filled fields)) ∧
    s.Declares place.loc place.node.Requires nodes fields

/--
The type recorded for a place is a record with the fields that its schema declares. A required field
has the type recorded for its schema. Another one has this type together with null, which is the
type itself if it admits null and else the one node that makes it nullable.
-/
def State.Shows (s : State) (place : Place) (nodes : Entries String Json) : Prop :=
  ∃ h fields, s.memo.get? place.loc = some h ∧
    s.graph.shape? h = some (.record (.filled fields)) ∧ Entries.keys fields = nodes.keys ∧
    ∀ name type, (name, type) ∈ fields → ∃ declared shape,
      s.memo.get? (place.loc.child (.property name)) = some declared ∧
      s.graph.shape? declared = some shape ∧
      (place.node.Requires name → type = declared) ∧
      (¬place.node.Requires name →
        (Graph.admitsNull shape = true → type = declared) ∧
        (Graph.admitsNull shape = false →
          ∀ k, s.graph.shape? k = some (.nullable declared) ↔ k = type))

def State.Recorded (document : Json) (s : State) : Prop :=
  ∀ p nodes, Addressed document p → p.IsRecord nodes → p.loc ∉ s.active → s.Knows p.loc →
    ∃ h, s.memo.get? p.loc = some h ∧ s.HasRecord p nodes h

def State.Enclosed (document : Json) (s : State) : Prop :=
  ∀ p nodes name, Addressed document p → p.IsRecord nodes →
    p.loc.child (.property name) ∈ s.active → p.loc ∈ s.active

theorem distinct_eq_singleton {α : Type} [DecidableEq α] {a : α} {as : List α}
    (h : ∀ b, b ∈ as ↔ b = a) : distinct as = [a] := by
  have hmem : ∀ b, b ∈ distinct as ↔ b = a := fun b => mem_distinct.trans (h b)
  have hnodup := nodup_distinct as
  generalize distinct as = found at hmem hnodup
  cases found with
  | nil => cases (hmem a).2 rfl
  | cons b rest =>
    obtain rfl := (hmem b).1 (List.mem_cons_self ..)
    cases rest with
    | nil => rfl
    | cons c rest =>
      obtain rfl := (hmem c).1 (List.mem_cons_of_mem _ (List.mem_cons_self ..))
      exact absurd (List.mem_cons_self ..) (List.nodup_cons.1 hnodup).1

namespace Schema

variable {schema : Schema} {loc : Location} {form : Form}

theorem form_eq_named (hreference : schema.get? .reference = none)
    (henum : schema.get? .enum = none) (htype : schema.get? .type ≠ none)
    (hform : schema.form loc = .ok form) :
    ∃ names, form = .named names ∧ schema.types? loc = .ok (some names) := by
  have hreference' : schema.reference? = .ok none := by
    unfold reference?
    rw [hreference]
  have hcases : schema.cases? loc = .ok none := by
    unfold cases?
    rw [henum]
  unfold Schema.form at hform
  rcases htypes : schema.types? loc with fault | _ | names
  . simp [hreference', hcases, htypes, bind, Except.bind] at hform
  . exact absurd (types?_eq_none htypes) htype
  . simp [hreference', hcases, htypes, bind, Except.bind, pure, Except.pure] at hform
    exact ⟨names, hform.symm, rfl⟩

theorem requires_iff {node : Json} (hschema : ofJson node loc = .ok schema) {required : List String}
    (hrequired : schema.required loc = .ok required) (name : String) :
    name ∈ required ↔ node.Requires name := by
  unfold Json.Requires
  unfold Schema.required at hrequired
  rw [get?_of_ofJson hschema] at hrequired
  split at hrequired
  . next hnone =>
    cases hrequired
    simp [hnone]
  . next names hnames =>
    split at hrequired
    . next found hfound =>
      cases hrequired
      rw [hnames, ← mem_of_strings? hfound]
      simp
    . cases hrequired
  . cases hrequired

end Schema

section

variable {document : Json} {place p : Place} {nodes : Entries String Json} {g g' : Graph}
  {s t : State} {h declared type : Handle} {fields : Fields} {required : Prop}

theorem Place.IsRecord.distinct_types (hplace : place.IsRecord nodes) {schema : Schema}
    (hschema : Schema.ofJson place.node place.loc = .ok schema) {form : Form}
    (hform : schema.form place.loc = .ok form) :
    ∃ names, form = .named names ∧ distinct names = ["object"] := by
  have hget := Schema.get?_of_ofJson hschema
  have hreference := (hget .reference).trans hplace.reference
  have henum := (hget .enum).trans hplace.enum
  have hobject := (hplace.type "object").2 rfl
  have htype : schema.get? .type ≠ none := by
    rw [hget]
    rcases hobject with hname | ⟨names, hnames, -⟩
    . simp [hname]
    . simp [hnames]
  obtain ⟨names, rfl, htypes⟩ := Schema.form_eq_named hreference henum htype hform
  have hall : ∀ name ∈ names, name = "object" :=
    fun name hname => (hplace.type name).1 (Schema.namesType_of_types? hschema htypes hname)
  refine ⟨names, rfl, distinct_eq_singleton fun name => ⟨hall name, ?_⟩⟩
  rintro rfl
  rcases Schema.types?_eq_some htypes with ⟨name, -, rfl⟩ | ⟨values, hvalues, hstrings⟩
  . exact List.mem_singleton.2 (hall name (List.mem_singleton_self _)).symm
  . rw [hget] at hvalues
    rcases hobject with hname | ⟨names', hnames', hmem⟩
    . rw [hname] at hvalues
      cases hvalues
    . rw [hnames'] at hvalues
      cases hvalues
      exact (Schema.mem_of_strings? hstrings).1 (List.mem_map_of_mem hmem)

theorem Graph.MakesNullable.eq_of_admitsNull (hr : g.MakesNullable h type) (hg : g.Sound)
    {shape : Shape} (hshape : g.shape? h = some shape) (hnull : Graph.admitsNull shape = true) :
    type = h := by
  cases hr with
  | itself _ _ => rfl
  | wrapped hwrapped =>
    obtain ⟨shape', hshape', hnull'⟩ := hg.allows hwrapped
    cases hshape.symm.trans hshape'
    rw [hnull] at hnull'
    cases hnull'

theorem Graph.MakesNullable.shape?_iff (hr : g.MakesNullable h type) (hg : g.Interned)
    {shape : Shape} (hshape : g.shape? h = some shape) (hnull : Graph.admitsNull shape = false)
    (k : Handle) : g.shape? k = some (.nullable h) ↔ k = type := by
  cases hr with
  | itself hshape' hnull' =>
    cases hshape.symm.trans hshape'
    rw [hnull] at hnull'
    cases hnull'
  | wrapped hwrapped =>
    constructor
    . intro hk
      have hlisted : (Key.nullable h, k) ∈ g.shared := hg.listed hk rfl
      have hlisted' : (Key.nullable h, type) ∈ g.shared := hg.listed hwrapped rfl
      exact hg.single hlisted hlisted' (Key.same_refl _)
    . rintro rfl
      exact hwrapped

theorem Graph.MakesNullable.evolve (hr : g.MakesNullable h type) (hg : g.Evolves g') :
    g'.MakesNullable h type := by
  cases hr with
  | itself hshape hnull => exact .itself (hg.shape? hshape (Graph.isOpen_of_admitsNull hnull)) hnull
  | wrapped hshape => exact .wrapped (hg.shape? hshape rfl)

theorem Graph.FieldOf.evolve (hfield : g.FieldOf required declared type) (hg : g.Evolves g') :
    g'.FieldOf required declared type :=
  ⟨hfield.1, fun hnot => (hfield.2 hnot).evolve hg⟩

theorem State.Declares.later {loc : Location} {required : String → Prop}
    (hs : s.Declares loc required nodes fields)
    (hmemo : ∀ name h, s.memo.get? (loc.child (.property name)) = some h →
      t.memo.get? (loc.child (.property name)) = some h)
    (hgraph : s.graph.Evolves t.graph) : t.Declares loc required nodes fields := by
  refine ⟨hs.keys, ?_⟩
  intro name type hmem
  obtain ⟨declared, hdeclared, hfield⟩ := hs.field hmem
  exact ⟨declared, hmemo name declared hdeclared, hfield.evolve hgraph⟩

theorem State.HasRecord.later (hs : s.HasRecord place nodes h)
    (hmemo : ∀ name h, s.memo.get? (place.loc.child (.property name)) = some h →
      t.memo.get? (place.loc.child (.property name)) = some h)
    (hgraph : s.graph.Evolves t.graph) : t.HasRecord place nodes h := by
  obtain ⟨fields, hshape, hfields⟩ := hs
  exact ⟨fields, hgraph.shape? hshape rfl, hfields.later hmemo hgraph⟩

theorem State.HasRecord.recorded (hs : s.HasRecord place nodes h) {loc : Location}
    (hloc : ∀ name, loc ≠ place.loc.child (.property name)) (k : Handle) :
    (s.recorded loc k).HasRecord place nodes h := by
  refine hs.later ?_ (.refl _)
  intro name h hget
  rw [State.get?_recorded, if_neg (hloc name)]
  exact hget

theorem State.Recorded.later (hs : s.Recorded document) (hactive : ∀ loc ∈ s.active, loc ∈ t.active)
    (hmemo : t.memo = s.memo) (hgraph : s.graph.Evolves t.graph) : t.Recorded document := by
  intro p nodes hp hnodes hfree hknown
  unfold State.Knows at hknown
  rw [hmemo] at hknown
  obtain ⟨h, hh, hrecord⟩ := hs p nodes hp hnodes (fun hloc => hfree (hactive _ hloc)) hknown
  refine ⟨h, by rw [hmemo]; exact hh, hrecord.later ?_ hgraph⟩
  rw [hmemo]
  exact fun _ _ => id

end

namespace Descent

open Effect

variable {document : Json} {convert : Convert} {s t : State} {loc : Location} {place p : Place}
  {nodes : Entries String Json} {h : Handle}

theorem returns_makesNullable (hs : s.graph.Sound) (hhas : s.graph.Has h) (hint : NameHint) :
    Returns (build fun g => g.addNullable h hint)
      (fun r t => s.Grown t ∧ t.graph.Has r ∧ t.graph.MakesNullable h r) s := by
  obtain ⟨hbuilt, hr⟩ := Graph.built_addNullable hs hhas hint
  obtain ⟨shape, hgives, hshape⟩ := Graph.gives_addNullable hs hhas hint
  apply alike_build
  refine ⟨.build hbuilt, hr, ?_⟩
  dsimp only
  rcases hshape with rfl | ⟨heq, hnull⟩
  . exact .wrapped hgives.shape
  . have hshape := hgives.shape
    rw [heq] at hshape ⊢
    exact .itself hshape hnull

theorem declares_intoFields (hc : Contract.frame.Met document convert convert)
    (required : List String) (hnodes : ∀ name node, (name, node) ∈ nodes → node.hasUniqueKeys = true)
    (hs : s.Valid document) :
    Returns (intoFields convert required loc nodes) (fun fields t =>
      (Frame s t ∧ t.Valid document) ∧ t.Declares loc (fun name => name ∈ required) nodes fields)
      s := by
  induction nodes generalizing s with
  | nil => exact alike_pure ⟨⟨.refl s, hs⟩, rfl, fun hmem => nomatch hmem⟩
  | cons entry rest ih =>
    obtain ⟨name, node⟩ := entry
    have hrest : ∀ declared type t, Frame s t → t.Valid document →
        t.memo.get? (loc.child (.property name)) = some declared →
        t.graph.FieldOf (name ∈ required) declared type →
        Returns (intoFields convert required loc rest >>= fun fields =>
          pure ((name, type) :: fields)) (fun fields t => (Frame s t ∧ t.Valid document) ∧
            t.Declares loc (fun name => name ∈ required) ((name, node) :: rest) fields) t := by
      intro declared type t hframe hvalid hmemo hfield
      apply (ih (fun name node hmem => hnodes name node (List.mem_cons_of_mem _ hmem)) hvalid).next
      rintro fields u ⟨⟨hframe', hvalid'⟩, hfields⟩
      refine alike_pure ⟨⟨hframe.trans hframe', hvalid'⟩, ?_, ?_⟩
      . simp only [Entries.keys, List.map_cons, List.cons.injEq, true_and]
        exact hfields.keys
      . intro name' type' hmem
        rcases List.mem_cons.1 hmem with heq | hmem
        . cases heq
          exact ⟨declared, hframe'.memo hmemo, hfield.evolve hframe'.graph.evolves⟩
        . exact hfields.field hmem
    unfold intoFields
    apply ((hc ⟨node, loc.child (.property name)⟩ (.inferred name) s hs
      (hnodes name node (List.mem_cons_self ..)) trivial).mono (fun _ _ => And.left)
      (fun _ _ _ => trivial)).next
    intro declared t hdeclared
    dsimp only
    split
    . next hrequired =>
      rw [pure_bind]
      exact hrest declared declared t hdeclared.frame hdeclared.valid hdeclared.memo
        ⟨fun _ => rfl, fun hnot => absurd hrequired hnot⟩
    . next hrequired =>
      have hhas := hdeclared.has declared (List.mem_singleton_self _)
      apply (returns_makesNullable hdeclared.valid.sound hhas (.inferred name)).next
      rintro type u ⟨hgrown, -, hnullable⟩
      apply hrest declared type u (hdeclared.frame.grown hgrown) (hdeclared.valid.grown hgrown)
      . rw [hgrown.memo]
        exact hdeclared.memo
      . exact ⟨fun hmem => absurd hmem hrequired, fun _ => hnullable⟩

theorem hasRecord_intoRecord (hc : Contract.frame.Met document convert convert)
    {schema : Schema} (hschema : Schema.ofJson place.node place.loc = .ok schema)
    (hnodes : ∀ name node, (name, node) ∈ nodes → node.hasUniqueKeys = true) (hint : NameHint)
    (hs : s.Valid document) :
    Returns (intoRecord convert schema nodes place.loc hint)
      (fun h t => t.HasRecord place nodes h) s := by
  unfold intoRecord
  apply alike_check_bind
  . exact fun _ _ => trivial
  intro required hrequired
  have hgives : s.graph.Gives (s.graph.addRecord hint .pending) (.record .pending) :=
    Graph.gives_addRecord hs.sound hint (fun _ hmem => nomatch hmem) (fun _ heq => nomatch heq)
  apply (alike_build (Q := fun h t => h = (s.graph.addRecord hint .pending).1 ∧
    t = { s with graph := (s.graph.addRecord hint .pending).2 }) ⟨rfl, rfl⟩).next
  generalize s.graph.addRecord hint .pending = r at hgives
  rintro _ _ ⟨rfl, rfl⟩
  apply alike_change_bind
  have hopened := (hs.evolve hgives.evolves hgives.sound).recorded place.loc hgives.has
  apply (declares_intoFields hc required hnodes hopened).next
  rintro fields t ⟨-, hfields⟩
  have hrequires : (fun name => name ∈ required) = place.node.Requires :=
    funext fun name => propext (Schema.requires_iff hschema hrequired name)
  rw [hrequires] at hfields
  apply alike_fill_bind
  . exact fun _ _ => trivial
  intro g hfill
  have hfills := Graph.fills_fillRecord hfill
  apply alike_pure
  refine ⟨fields, ?_, hfields.later (fun _ _ => id) hfills.evolves⟩
  dsimp only
  rw [hfills.shape?, if_pos rfl]

def MadeRecord (place : Place) (_ : State) (h : Handle) (t : State) : Prop :=
  ∀ nodes, place.IsRecord nodes → t.HasRecord place nodes h

theorem makes_record (document : Json) : Makes document MadeRecord := by
  intro convert hc place hint s hs
  by_cases hrecord : ∃ nodes, place.IsRecord nodes
  . obtain ⟨nodes, hplace⟩ := hrecord
    have hgroup := Json.hasUniqueKeys_object_iff.1
      (Json.hasUniqueKeys_of_field? hs.keys hplace.properties)
    rw [intoSchema_eq]
    apply alike_check_bind
    . exact fun _ _ => trivial
    intro schema hschema
    apply alike_check_bind
    . exact fun _ _ => trivial
    intro form hform
    obtain ⟨names, rfl, hnames⟩ := hplace.distinct_types hschema hform
    have hproperties : schema.properties? place.loc = .ok (some nodes) := by
      unfold Schema.properties?
      rw [Schema.get?_of_ofJson hschema, hplace.properties]
    dsimp only [intoForm]
    unfold intoNames
    rw [hnames]
    dsimp only
    unfold intoNamed intoObject
    rw [hproperties]
    apply alike_check_bind
    . exact fun _ _ => trivial
    rintro _ ⟨⟩
    apply (hasRecord_intoRecord hc hschema hgroup.2 _ (hs.valid.begun place)).mono _
      (fun _ _ => id)
    intro h t ht nodes' hplace'
    cases hplace.properties.symm.trans hplace'.properties
    exact ht
  . exact returns_of_forall fun h t nodes hplace => absurd ⟨nodes, hplace⟩ hrecord

def declaring (document : Json) : Contract where
  pre place s := Addressed document place ∧ s.Recorded document ∧ s.Enclosed document ∧
    ∀ p nodes name, Addressed document p → p.IsRecord nodes →
      place.loc = p.loc.child (.property name) → p.loc ∈ s.active
  post _ _ t := t.Recorded document
  fault _ _ _ _ := True

theorem ne_of_closed (hs : (declaring document).pre place s) (hp : Addressed document p)
    (hnodes : p.IsRecord nodes) (hfree : p.loc ∉ s.active) (name : String) :
    place.loc ≠ p.loc.child (.property name) :=
  fun hloc => hfree (hs.2.2.2 p nodes name hp hnodes hloc)

theorem declaring_record (hs : (declaring document).pre place s) (hframe : Frame (s.begun place) t)
    (ht : t.Recorded document) : (t.recorded place.loc h).Recorded document := by
  intro p nodes hp hnodes hfree hknown
  have hactive : p.loc ∉ t.active := hfree
  rw [hframe.active, State.mem_active_begun, not_or] at hactive
  rw [State.knows_recorded] at hknown
  obtain ⟨k, hk, hrecord⟩ := ht p nodes hp hnodes hfree (hknown.resolve_left hactive.1)
  refine ⟨k, ?_, hrecord.recorded (ne_of_closed hs hp hnodes hactive.2) h⟩
  rw [State.get?_recorded, if_neg (Ne.symm hactive.1)]
  exact hk

theorem declaring_call (hkeys : document.hasUniqueKeys = true)
    (hs : (declaring document).pre place s) (hframe : Frame (s.begun place) t) {edge : Edge}
    (hedge : edge ∈ place.edges document) (ht : t.Recorded document) :
    (declaring document).pre edge.target t := by
  obtain ⟨hplace, -, henclosed, hrecord⟩ := hs
  refine ⟨hplace.next hkeys hedge, ht, ?_, ?_⟩
  . intro p nodes name hp hnodes hloc
    rw [hframe.active, State.mem_active_begun] at hloc ⊢
    rcases hloc with hloc | hloc
    . exact Or.inr (hrecord p nodes name hp hnodes hloc.symm)
    . exact Or.inr (henclosed p nodes name hp hnodes hloc)
  . intro p nodes name hp hnodes hloc
    have hstep : ¬(Step.property name).IsReferring := by simp [Step.IsReferring]
    rw [hframe.active, State.mem_active_begun]
    exact Or.inl (Place.loc_of_child (hplace.hasUniqueKeys hkeys) hedge hstep hloc).symm

theorem declaring_finish (hs : (declaring document).pre place s)
    (hframe : Frame (s.begun place) t) (ht : t.Recorded document)
    (hmade : MadeRecord place s h t) :
    ((t.ended place.loc (place.loc ∈ s.active)).recorded place.loc h).Recorded document := by
  intro p nodes hp hnodes hfree hknown
  have hactive : p.loc ∉ s.active := by
    rw [← hframe.ended.active]
    exact hfree
  have hends : ∀ {q k}, t.HasRecord q nodes k →
      (t.ended place.loc (place.loc ∈ s.active)).HasRecord q nodes k := by
    intro q k hq
    refine hq.later ?_ ?_
    . rw [t.ended_memo]
      exact fun _ _ => id
    . rw [t.ended_graph]
      exact .refl _
  have hclosed := ne_of_closed hs hp hnodes hactive
  by_cases hloc : p.loc = place.loc
  . -- This is the end of the last conversion of the record.
    obtain rfl := hp.unique hs.1 hloc
    refine ⟨h, ?_, (hends (hmade nodes hnodes)).recorded hclosed h⟩
    rw [State.get?_recorded, if_pos rfl]
  . rw [State.knows_recorded, State.knows_ended] at hknown
    have hfree' : p.loc ∉ t.active := by
      rw [hframe.active, State.mem_active_begun, not_or]
      exact ⟨hloc, hactive⟩
    obtain ⟨k, hk, hrecord⟩ := ht p nodes hp hnodes hfree' (hknown.resolve_left hloc)
    refine ⟨k, ?_, (hends hrecord).recorded hclosed h⟩
    rw [State.get?_recorded, if_neg (Ne.symm hloc), t.ended_memo]
    exact hk

theorem declaring_step (hkeys : document.hasUniqueKeys = true) :
    Contract.Step document (declaring document) (declaring document) MadeRecord
      (fun _ _ _ _ t => t.Recorded document) where
  known hs _ := hs.2.1.later (fun _ => id) rfl (.refl _)
  third _ _ _ _ := trivial
  start := by
    intro place s hs
    apply hs.pre.2.1.later
    . exact fun loc hloc => State.mem_active_begun.2 (Or.inr hloc)
    . exact s.begun_memo place
    . rw [s.begun_graph place]
      exact .refl _
  graph ht hg := ht.later (fun _ => id) rfl hg
  merged ht := ht.later (fun _ => id) rfl (.refl _)
  joined ht := ht.later (fun _ => id) rfl (.refl _)
  record hs _ hframe ht := declaring_record hs.pre hframe ht
  call hs hframe hedge ht := declaring_call hkeys hs.pre hframe hedge ht
  resume _ _ _ _ _ _ hu := hu
  abort _ _ _ _ _ _ := trivial
  ordinary _ _ _ _ := trivial
  finish hs hframe ht hmade := declaring_finish hs.pre hframe ht hmade

theorem declaring_met (hkeys : document.hasUniqueKeys = true) (depth : Nat) :
    (declaring document).Met document (convertWithin depth) (convertWithin depth) :=
  (declaring_step hkeys).met_all hkeys (makes_record document) (fun _ _ _ => trivial) depth

end Descent

namespace Conversion

open Descent

variable {document : Json}

theorem known_of_dispatched (hkeys : document.hasUniqueKeys = true) {options : Options}
    {root : Handle} {t : State} (hrun : run document options = (.ok root, t)) {p : Place}
    (hbegun : (State.start document).Dispatched t p) : Addressed document p ∧ t.Knows p.loc := by
  obtain ⟨news, hnews, event, hmem, hevent⟩ := hbegun
  have hannounced := announced_run hkeys options
  rw [hrun] at hannounced
  apply known_of_requested hkeys hrun
  refine hannounced event ?_ p (Event.dispatched?_place? hevent)
  rw [hnews]
  exact List.mem_append_left _ hmem

theorem dispatched_of_mem_begunIn (hkeys : document.hasUniqueKeys = true) {options : Options}
    {p : Place} (hp : Addressed document p)
    (h : p.loc ∈ begunIn (run document options).2.journal) :
    (State.start document).Dispatched (run document options).2 p := by
  obtain ⟨event, hmem, hevent⟩ := List.mem_filterMap.1 h
  obtain ⟨q, hq, hloc⟩ : ∃ q, event.dispatched? = some q ∧ q.loc = p.loc := by
    cases event <;> cases hevent
    . exact ⟨_, rfl, rfl⟩
    . exact ⟨_, rfl, rfl⟩
  have hlocated := located_run hkeys options event hmem q (Event.dispatched?_place? hq)
  obtain rfl := hlocated.unique hp hloc
  exact ⟨_, (List.append_nil _).symm, event, hmem, hq⟩

theorem record_of_declared (hkeys : document.hasUniqueKeys = true) {options : Options}
    {root : Handle} {t : State} (hrun : run document options = (.ok root, t)) {p : Place}
    (hbegun : (State.start document).Dispatched t p) {nodes : Entries String Json}
    (hp : p.IsRecord nodes) : t.Shows p nodes := by
  have hdeclaring := ends_run hkeys (declaring_met hkeys) options
    ⟨Addressed.root, fun _ _ _ _ _ hknown => (nomatch hknown),
      fun _ _ _ _ _ hloc => (nomatch hloc),
      fun _ _ name hp _ hloc => absurd hloc.symm (hp.child_ne_root (.property name))⟩
  obtain ⟨hanswered, hrecorded⟩ := hdeclaring.ok hrun
  obtain ⟨hplace, hknown⟩ := known_of_dispatched hkeys hrun hbegun
  have hfree : p.loc ∉ t.active := by
    rw [hanswered.frame.active]
    exact List.not_mem_nil
  obtain ⟨h, hh, fields, hshape, hfields⟩ := hrecorded p nodes hplace hp hfree hknown
  have hinterned := interned_run document options
  rw [hrun] at hinterned
  refine ⟨h, fields, hh, hshape, hfields.keys, ?_⟩
  intro name type hmem
  obtain ⟨declared, hdeclared, hrequired, hoptional⟩ := hfields.field hmem
  obtain ⟨shape, hshape⟩ := Graph.has_iff.1 (hanswered.valid.memo hdeclared)
  refine ⟨declared, shape, hdeclared, hshape, hrequired, fun hnot => ⟨?_, ?_⟩⟩
  . exact (hoptional hnot).eq_of_admitsNull hanswered.valid.sound hshape
  . exact fun hnull k => (hoptional hnot).shape?_iff hinterned hshape hnull k

def remarkedFields : Entries String Json :=
  [("size", .object [("type", .string "integer")]),
    ("remark", .object [("type", .array [.string "string", .string "null"])]),
    ("rest", .object [("$ref", .string "#")])]

def remarkedDocument : Json :=
  .object [
    ("type", .string "object"),
    ("properties", .object remarkedFields),
    ("required", .array [.string "size"])]

theorem record_of_declared_remarked : ∃ root t, run remarkedDocument {} = (.ok root, t) ∧
    (State.start remarkedDocument).Dispatched t ⟨remarkedDocument, .root⟩ ∧
    Place.IsRecord ⟨remarkedDocument, .root⟩ remarkedFields ∧
    t.Shows ⟨remarkedDocument, .root⟩ remarkedFields := by
  have hkeys : remarkedDocument.hasUniqueKeys = true := by decide
  have hok : (run remarkedDocument {}).1 = .ok ⟨0⟩ := by decide +kernel
  have hrun : run remarkedDocument {} = (.ok ⟨0⟩, (run remarkedDocument {}).2) := by rw [← hok]
  have hbegun : (State.start remarkedDocument).Dispatched (run remarkedDocument {}).2
      ⟨remarkedDocument, .root⟩ :=
    dispatched_of_mem_begunIn hkeys Addressed.root (by decide +kernel)
  have hrecord : Place.IsRecord ⟨remarkedDocument, .root⟩ remarkedFields :=
    ⟨rfl, rfl, fun _ => Json.namesType_iff rfl, rfl⟩
  exact ⟨⟨0⟩, (run remarkedDocument {}).2, hrun, hbegun, hrecord,
    record_of_declared hkeys hrun hbegun hrecord⟩

end Conversion

end SchemaGraph
