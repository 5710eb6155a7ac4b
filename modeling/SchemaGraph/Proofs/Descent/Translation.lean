import SchemaGraph.Proofs.Descent.Contract
import SchemaGraph.Proofs.Descent.Pairing
import SchemaGraph.Proofs.Document.Locations

/-!
This module contains the proof that a conversion keeps the meaning of a place: its type accepts
every value that the place admits. A reference back to a place that is under way gets the open
record of the place. So the documents are those in which such a record stands for all that its place
admits, and in which no open map is given out.
-/

namespace SchemaGraph

/--
No schema of the document says what values its undeclared fields have, and no schema admits objects
together with other types.
-/
structure Tame (document : Json) : Prop where
  values {place} : Addressed document place → ∀ fields,
    place.node.field? Keyword.additionalProperties.text ≠ some (.object fields)
  types {place names} : Addressed document place →
    place.node.field? Keyword.type.text = some (.array names) → .string "object" ∈ names →
    ∀ name, .string name ∈ names → name = "object"

def Json.isTame (node : Json) : Bool :=
  !(node.field? Keyword.additionalProperties.text).any Json.isObject &&
    match node.field? Keyword.type.text with
    | some (.array names) =>
      let texts := names.filterMap Json.string?
      decide ("object" ∉ texts ∨ ∀ text ∈ texts, text = "object")
    | _ => true

theorem Tame.of_all {document : Json}
    (h : ∀ place ∈ Place.within document.size ⟨document, .root⟩, place.node.isTame = true) :
    Tame document := by
  have hplace : ∀ place, Addressed document place → place.node.isTame = true :=
    fun place hplace => h place hplace.mem_within
  constructor
  . intro place haddressed fields hfields
    have htame := hplace place haddressed
    unfold Json.isTame at htame
    rw [hfields] at htame
    cases htame
  . intro place names haddressed hnames hobject name hname
    have htame := hplace place haddressed
    unfold Json.isTame at htame
    rw [hnames, Bool.and_eq_true, decide_eq_true_iff] at htame
    have htexts : ∀ text, .string text ∈ names → text ∈ names.filterMap Json.string? :=
      fun text htext => List.mem_filterMap.2 ⟨_, htext, rfl⟩
    rcases htame.2 with habsent | hall
    . exact absurd (htexts _ hobject) habsent
    . exact hall name (htexts _ hname)

theorem Tame.listsObjectsAlone {document : Json} (htame : Tame document) :
    ListsObjectsAlone document :=
  fun _ _ => htame.types

namespace Descent

open Effect

def Translating (document : Json) (M : Moments) (convert : Convert) : Prop :=
  ∀ place hint s O S, Addressed document place → Kept document M O S s →
    Returns (convert place.node place.loc hint)
      (fun h t => ∃ S', Shown document M O S s (.admits place) h S' t) s

structure FieldShown (M : Moments) (S : Pairing) (place : Place) (required : List String)
    (g : Graph) (name : String) (node : Json) (type : Handle) : Prop where
  has : g.Has type
  covers : g.Covers M (fun g value =>
    S.Granted M g ⟨node, place.loc.child (.property name)⟩ value) type
  null : name ∉ required → g.Covers M (fun _ value => value = .null) type

structure FieldsShown (document : Json) (M : Moments) (O S : Pairing) (s : State) (place : Place)
    (required : List String) (nodes : List (String × Json)) (fields : Fields) (S' : Pairing)
    (t : State) : Prop extends Reached document M O S s S' t where
  keys : Entries.keys fields = Entries.keys nodes
  field {name type} : (name, type) ∈ fields → ∃ node, (name, node) ∈ nodes ∧
    FieldShown M S' place required t.graph name node type

section

variable {document : Json} {M : Moments} {O S S' S'' : Pairing} {s t u : State} {place : Place}
  {convert : Convert} {schema : Schema} {required : List String} {h : Handle}

theorem FieldShown.later {name : String} {node : Json} {type : Handle}
    (hfield : FieldShown M S' place required t.graph name node type)
    (htu : Reached document M O S' t S'' u) :
    FieldShown M S'' place required u.graph name node type := by
  refine ⟨htu.evolves.has _ hfield.has, ?_, fun hname => (hfield.null hname).evolve htu.evolves⟩
  apply (hfield.covers.evolve htu.evolves).mono
  intro g _ value hvalue
  exact Pairing.granted_anti htu.pairs hvalue

theorem returns_adds {rank : Option Nat} {P : Graph → Json → Prop}
    {make : Graph → Handle × Graph} (hadds : s.graph.Adds M rank P (make s.graph)) :
    Returns (build make) (fun h t => s.Grown t ∧ t.graph.Has h ∧ t.graph.Covers M P h) s := by
  apply alike_build
  exact ⟨.build hadds.toBuilt, hadds.has, hadds.covers⟩

theorem returns_build {rank : Option Nat} {make : Graph → Handle × Graph} {F : Sense}
    (hs : Kept document M O S s)
    (hadds : s.graph.Adds M rank (fun g value => F.holds (S.Granted M g) value) (make s.graph)) :
    Returns (build make) (fun h t => ∃ S', Shown document M O S s F h S' t) s := by
  apply (returns_adds hadds).mono _ (fun _ _ => id)
  rintro h t ⟨hgrown, hhas, hcovers⟩
  exact ⟨S, (Reached.refl hs).grown hgrown, hhas, hcovers⟩

theorem returns_intoFields (hc : Translating document M convert) (required : List String)
    (nodes : List (String × Json))
    (hnodes : ∀ name node, (name, node) ∈ nodes →
      Addressed document ⟨node, place.loc.child (.property name)⟩)
    (hs : Kept document M O S s) :
    Returns (intoFields convert required place.loc nodes)
      (fun fields t => ∃ S', FieldsShown document M O S s place required nodes fields S' t) s := by
  induction nodes generalizing S s with
  | nil => exact alike_pure ⟨S, .refl hs, rfl, fun hmem => nomatch hmem⟩
  | cons entry rest ih =>
    obtain ⟨name, node⟩ := entry
    have hrest : ∀ type t S', Reached document M O S s S' t →
        FieldShown M S' place required t.graph name node type →
        Returns (intoFields convert required place.loc rest >>= fun fields =>
            pure ((name, type) :: fields))
          (fun fields t => ∃ S', FieldsShown document M O S s place required
            ((name, node) :: rest) fields S' t) t := by
      intro type t S' hst htype
      apply (ih (fun name node hmem => hnodes name node (List.mem_cons_of_mem _ hmem))
        hst.kept).next
      rintro fields u ⟨S'', hfields⟩
      apply alike_pure
      refine ⟨S'', hst.trans hfields.toReached, ?_, ?_⟩
      . simp only [Entries.keys, List.map_cons, List.cons.injEq, true_and]
        exact hfields.keys
      . intro name' type' hmem
        rcases List.mem_cons.1 hmem with heq | hmem
        . cases heq
          exact ⟨node, List.mem_cons_self .., htype.later hfields.toReached⟩
        . obtain ⟨node', hnode', hfield⟩ := hfields.field hmem
          exact ⟨node', List.mem_cons_of_mem _ hnode', hfield⟩
    have hplace := hnodes name node (List.mem_cons_self ..)
    unfold intoFields
    apply (hc _ (.inferred name) s O S hplace hs).next
    rintro declared t ⟨S', hdeclared⟩
    dsimp only
    split
    . next hrequired =>
      apply (alike_pure (Q := fun type u => type = declared ∧ u = t) ⟨rfl, rfl⟩).next
      rintro type u ⟨rfl, rfl⟩
      exact hrest _ _ S' hdeclared.toReached
        ⟨hdeclared.has, hdeclared.covers, fun hname => absurd hrequired hname⟩
    . have hadds := Graph.adds_addNullable (M := M) hdeclared.kept.sound hdeclared.has
        (.inferred name)
      apply (returns_adds (s := t) hadds).next
      rintro type u ⟨hgrown, hhas, hcovers⟩
      apply hrest type u S' (hdeclared.toReached.grown hgrown)
      refine ⟨hhas, ?_, fun _ => hcovers.mono fun _ _ _ hnull => Or.inl hnull⟩
      apply hcovers.mono
      intro g hg value hvalue
      exact Or.inr (hdeclared.covers g (hgrown.evolves.trans hg) value hvalue)

theorem FieldsShown.fit {nodes : Entries String Json} {declared : Fields}
    (hshown : FieldsShown document M O S s place required nodes declared S' t)
    (hschema : Schema.ofJson place.node place.loc = .ok schema)
    (hrequired : schema.required place.loc = .ok required)
    (hkeys : nodes.keys.Nodup) {g : Graph} (hg : t.graph.Evolves g) {fields : List (String × Json)}
    (hfits : place.FitsRecord (S'.Granted M g) nodes fields) :
    Fields.Fit (Accepts M g) declared fields := by
  constructor
  . intro name value hvalue
    obtain ⟨node, hnode, hgranted⟩ := hfits.1 name value hvalue
    have hname : name ∈ Entries.keys declared := by
      rw [hshown.keys]
      exact Entries.mem_keys_iff.2 ⟨node, hnode⟩
    obtain ⟨⟨name', type⟩, htype, rfl⟩ := List.mem_map.1 hname
    obtain ⟨node', hnode', hfield⟩ := hshown.field htype
    -- The keys are unique, so the field has been given its type by this node.
    have hget := Entries.get?_of_mem hkeys hnode'
    rw [hnode] at hget
    cases hget
    exact ⟨type, htype, hfield.covers g hg value hgranted⟩
  . intro name type htype habsent
    -- A required field is never absent, and the type of any other one is nullable.
    obtain ⟨node, hnode, hfield⟩ := hshown.field htype
    apply hfield.null _ g hg .null rfl
    intro hname
    apply habsent
    unfold Schema.required at hrequired
    rw [Schema.get?_of_ofJson hschema] at hrequired
    split at hrequired
    . cases hrequired
      cases hname
    . next names hnames =>
      split at hrequired
      . next found hfound =>
        cases hrequired
        exact hfits.2 names hnames name ((Schema.mem_of_strings? hfound).2 hname)
          (List.mem_map_of_mem hnode)
      . cases hrequired
    . cases hrequired

theorem returns_intoRecord (hc : Translating document M convert)
    (hkeys : document.hasUniqueKeys = true) (hplace : Addressed document place)
    (hschema : Schema.ofJson place.node place.loc = .ok schema)
    {nodes : List (String × Json)} (hnodes : schema.properties? place.loc = .ok (some nodes))
    (hreads : ∀ A value, place.Reads document M A value → place.FitsNamed M A "object" value)
    (hint : NameHint) (hs : Kept document M O S s) :
    Returns (intoRecord convert schema nodes place.loc hint)
      (fun h t => ∃ S', Shown document M O S s (.named M place "object") h S' t) s := by
  have hget := Schema.properties?_eq_some hnodes
  rw [Schema.get?_of_ofJson hschema] at hget
  have hgroup := Json.hasUniqueKeys_of_field? (hplace.hasUniqueKeys hkeys) hget
  have hnodup : (Entries.keys nodes).Nodup := (Json.hasUniqueKeys_object_iff.1 hgroup).1
  have haddressed : ∀ name node, (name, node) ∈ nodes →
      Addressed document ⟨node, place.loc.child (.property name)⟩ := by
    intro name node hmem
    apply hplace.inside (by simp)
    exact Place.property_eq_ok.2 ⟨nodes, hget, Entries.get?_of_mem hnodup hmem⟩
  unfold intoRecord
  apply alike_check_bind
  . exact fun _ _ => trivial
  . intro required hrequired
    have hgives : s.graph.Gives (s.graph.addRecord hint .pending) (.record .pending) :=
      Graph.gives_addRecord hs.sound hint (fun _ hmem => nomatch hmem) (fun _ heq => nomatch heq)
    apply (alike_build (Q := fun h t => h = (s.graph.addRecord hint .pending).1 ∧
      t = { s with graph := (s.graph.addRecord hint .pending).2 }) ⟨rfl, rfl⟩).next
    generalize (s.graph.addRecord hint .pending) = r at hgives
    rintro _ _ ⟨rfl, rfl⟩
    have hmaps : ∀ h, r.2.shape? h ≠ some (.map .pending) := by
      intro h hshape
      rcases hgives.fresh h (Graph.has_of_shape? hshape) with hhas | rfl
      . rw [hgives.grows.shape?_eq hhas] at hshape
        exact hs.maps h hshape
      . rw [hgives.shape] at hshape
        cases hshape
    -- The open record counts as a type of the place, to which nothing is owed before it is filled.
    have hopened := ((hs.evolve hgives.evolves hgives.sound hmaps).opened place r.1).pair
      hgives.has (Or.inl (Or.inr ⟨rfl, rfl⟩))
    unfold record
    apply alike_change_bind
    apply (returns_intoFields hc required nodes haddressed
      (hopened.recorded hplace (Or.inr ⟨rfl, rfl⟩))).next
    rintro declared t ⟨S', hdeclared⟩
    apply alike_fill_bind
    . exact fun _ _ => trivial
    . intro g' hfill
      have hinside : ∀ field ∈ declared, t.graph.Has field.2 := by
        rintro ⟨name, type⟩ hfield
        obtain ⟨node, -, hshown⟩ := hdeclared.field hfield
        exact hshown.has
      have hkeys' : (Entries.keys declared).Nodup := by
        rw [hdeclared.keys]
        exact hnodup
      have hsound := hdeclared.kept.sound.fillRecord hinside hkeys' hfill
      have hfills := Graph.fills_fillRecord hfill
      have hevolves := hfills.evolves
      have hshape : g'.shape? r.1 = some (.record (.filled declared)) := by
        rw [hfills.shape?, if_pos rfl]
      have hmaps' : ∀ h, g'.shape? h ≠ some (.map .pending) := by
        intro h hpending
        rw [hfills.shape?] at hpending
        split at hpending
        . cases hpending
        . exact hdeclared.kept.maps h hpending
      have hcovers : g'.Covers M (fun g value =>
          (Sense.named M place "object").holds (S'.Granted M g) value) r.1 := by
        apply Graph.covers_of_shape hshape rfl
        rintro g'' hg'' value ⟨fields, rfl, hfits⟩
        unfold Place.FitsObject at hfits
        rw [hget] at hfits
        exact ⟨fields, rfl,
          hdeclared.fit hschema hrequired hnodup (hevolves.trans hg'') hfits⟩
      apply alike_pure
      have hfilled := hdeclared.kept.evolve hevolves hsound hmaps'
      have hclosed := hfilled.closed (hcovers.mono fun g _ value hvalue => hreads _ value hvalue)
      refine ⟨S', ⟨fun hS => hdeclared.pairs (Or.inl hS), ?_, hclosed⟩,
        Graph.has_of_shape? hshape, hcovers⟩
      exact hgives.evolves.trans (hdeclared.evolves.trans hevolves)

theorem returns_intoObject (hc : Translating document M convert)
    (hkeys : document.hasUniqueKeys = true) (htame : Tame document)
    (hplace : Addressed document place)
    (hschema : Schema.ofJson place.node place.loc = .ok schema)
    (hreads : ∀ A value, place.Reads document M A value → place.FitsNamed M A "object" value)
    (hint : NameHint) (hs : Kept document M O S s) :
    Returns (intoObject convert schema place.loc hint)
      (fun h t => ∃ S', Shown document M O S s (.named M place "object") h S' t) s := by
  unfold intoObject
  apply alike_check_bind
  . exact fun _ _ => trivial
  . intro nodes? hnodes
    cases nodes? with
    | some nodes => exact returns_intoRecord hc hkeys hplace hschema hnodes hreads hint hs
    | none =>
      have hproperties := Schema.properties?_eq_none hnodes
      rw [Schema.get?_of_ofJson hschema] at hproperties
      dsimp only
      split
      . next hforbidden =>
        have hget := Schema.additional?_eq_forbidden hforbidden
        rw [Schema.get?_of_ofJson hschema] at hget
        have hadds : s.graph.Adds M (some 0) (fun g value => ∃ fields, value = .object fields ∧
            Fields.Fit (Accepts M g) [] fields) (s.graph.addRecord hint (.filled [])) :=
          Graph.adds_addRecord hs.sound hint (fun _ hmem => nomatch hmem) List.nodup_nil
        apply returns_build hs
        apply hadds.mono
        rintro g _ value ⟨fields, rfl, hfits⟩
        unfold Place.FitsObject at hfits
        rw [hproperties] at hfits
        dsimp only at hfits
        rw [hget] at hfits
        subst hfits
        exact ⟨[], rfl, fun _ _ hmem => (nomatch hmem), fun _ _ hmem => (nomatch hmem)⟩
      . next values hvalues =>
        obtain ⟨fields, -, hget⟩ := Schema.additional?_eq_schema hvalues
        rw [Schema.get?_of_ofJson hschema] at hget
        exact absurd hget (htame.values hplace fields)
      . have hany := Graph.adds_addPrimitive (M := M) hs.sound .any
        apply (returns_adds (s := s) hany).next
        rintro any t ⟨hgrown, hhas, hcovers⟩
        have hmap := Graph.adds_addMap (M := M) hgrown.sound hhas
        have hadds : t.graph.Adds M (some 0) (fun g value =>
            (Sense.named M place "object").holds (S.Granted M g) value) (t.graph.addMap any) := by
          apply hmap.mono
          rintro g hg value ⟨fields, rfl, -⟩
          refine ⟨fields, rfl, ?_⟩
          intro name value _
          exact hcovers g (hmap.evolves.trans hg) value trivial
        apply (returns_build (hs.grown hgrown) hadds).mono
        . rintro h u ⟨S', hshown⟩
          exact ⟨S', .after ((Reached.refl hs).grown hgrown) hshown⟩
        . exact fun _ _ => id

theorem returns_intoArray (hc : Translating document M convert) (hplace : Addressed document place)
    (hschema : Schema.ofJson place.node place.loc = .ok schema) (hint : NameHint)
    (hs : Kept document M O S s) :
    Returns (intoArray convert schema place.loc hint)
      (fun h t => ∃ S', Shown document M O S s (.named M place "array") h S' t) s := by
  have hrest : ∀ items t S', Reached document M O S s S' t → t.graph.Has items →
      (∀ node, place.node.field? Keyword.items.text = some node → t.graph.Covers M
        (fun g value => S'.Granted M g ⟨node, place.loc.child .items⟩ value) items) →
      (place.node.field? Keyword.items.text = none → t.graph.Covers M (fun _ _ => True) items) →
      Returns (build fun g => g.addArray items)
        (fun h t => ∃ S', Shown document M O S s (.named M place "array") h S' t) t := by
    intro items t S' hst hhas hsome hnone
    have harray := Graph.adds_addArray (M := M) hst.kept.sound hhas
    have hadds : t.graph.Adds M (some 9) (fun g value =>
        (Sense.named M place "array").holds (S'.Granted M g) value) (t.graph.addArray items) := by
      apply harray.mono
      rintro g hg value ⟨elements, rfl, helements⟩
      refine ⟨elements, rfl, ?_⟩
      intro e he
      cases hitems : place.node.field? Keyword.items.text with
      | none => exact hnone hitems g (harray.evolves.trans hg) e trivial
      | some node =>
        exact hsome node hitems g (harray.evolves.trans hg) e (helements node hitems e he)
    apply (returns_build hst.kept hadds).mono
    . rintro h u ⟨S'', hshown⟩
      exact ⟨S'', .after hst hshown⟩
    . exact fun _ _ => id
  unfold intoArray
  apply alike_check_bind
  . exact fun _ _ => trivial
  . intro items? hitems
    cases items? with
    | none =>
      have hget := Schema.items?_eq_none hitems
      rw [Schema.get?_of_ofJson hschema] at hget
      have hany := Graph.adds_addPrimitive (M := M) hs.sound .any
      apply (returns_adds (s := s) hany).next
      rintro items t ⟨hgrown, hhas, hcovers⟩
      apply hrest items t S ((Reached.refl hs).grown hgrown) hhas
      . intro node hnode
        rw [hget] at hnode
        cases hnode
      . exact fun _ => hcovers
    | some node =>
      obtain ⟨fields, rfl, hget⟩ := Schema.items?_eq_some hitems
      rw [Schema.get?_of_ofJson hschema] at hget
      have hitem : Addressed document ⟨.object fields, place.loc.child .items⟩ :=
        hplace.inside (by simp) (Place.inner_eq_ok.2 ⟨fields, rfl, hget⟩)
      apply (hc _ hint.singular s O S hitem hs).next
      rintro items t ⟨S', hshown⟩
      apply hrest items t S' hshown.toReached hshown.has
      . intro node hnode
        rw [hget] at hnode
        cases hnode
        exact hshown.covers
      . intro hnone
        rw [hget] at hnone
        cases hnone

theorem returns_intoString (hschema : Schema.ofJson place.node place.loc = .ok schema)
    (hint : NameHint) (hs : Kept document M O S s) :
    Returns (intoString schema place.loc hint)
      (fun h t => ∃ S', Shown document M O S s (.named M place "string") h S' t) s := by
  have hmoment : ∀ kind format,
      place.node.field? Keyword.format.text = some (.string format) →
      (∀ text, M.Formatted (some (.string format)) text → kind.Fits M (.string text)) →
      Returns (build fun g => g.addPrimitive kind)
        (fun h t => ∃ S', Shown document M O S s (.named M place "string") h S' t) s := by
    intro kind format hget hformat
    have hadds := Graph.adds_addPrimitive (M := M) hs.sound kind
    apply returns_build hs
    apply hadds.mono
    rintro g - value ⟨text, rfl, hformatted⟩
    rw [hget] at hformatted
    exact hformat text hformatted
  unfold intoString
  split
  . have hadds := Graph.adds_addString (M := M) hs.sound hint
    apply returns_build hs
    apply hadds.mono
    rintro g - value ⟨text, rfl, -⟩
    exact ⟨text, rfl⟩
  . next hformat =>
    have hget := Schema.format?_eq_some hformat
    rw [Schema.get?_of_ofJson hschema] at hget
    exact hmoment .date _ hget fun text htext => ⟨text, rfl, htext⟩
  . next hformat =>
    have hget := Schema.format?_eq_some hformat
    rw [Schema.get?_of_ofJson hschema] at hget
    exact hmoment .time _ hget fun text htext => ⟨text, rfl, htext⟩
  . next hformat =>
    have hget := Schema.format?_eq_some hformat
    rw [Schema.get?_of_ofJson hschema] at hget
    exact hmoment .dateTime _ hget fun text htext => ⟨text, rfl, htext⟩
  . exact alike_fail trivial

theorem returns_intoNamed (hc : Translating document M convert)
    (hkeys : document.hasUniqueKeys = true) (htame : Tame document)
    (hplace : Addressed document place)
    (hschema : Schema.ofJson place.node place.loc = .ok schema) (name : String)
    (hreads : name = "object" →
      ∀ A value, place.Reads document M A value → place.FitsNamed M A "object" value)
    (hint : NameHint) (hs : Kept document M O S s) :
    Returns (intoNamed convert schema place.loc hint name)
      (fun h t => ∃ S', Shown document M O S s (.named M place name) h S' t) s := by
  have hprimitive : ∀ kind name, (∀ A value, place.FitsNamed M A name value → kind.Fits M value) →
      Returns (build fun g => g.addPrimitive kind)
        (fun h t => ∃ S', Shown document M O S s (.named M place name) h S' t) s := by
    intro kind name hfits
    have hadds := Graph.adds_addPrimitive (M := M) hs.sound kind
    exact returns_build hs (hadds.mono fun _ _ value hvalue => hfits _ value hvalue)
  unfold intoNamed
  split
  . exact returns_intoObject hc hkeys htame hplace hschema (hreads rfl) hint hs
  . exact returns_intoArray hc hplace hschema hint hs
  . exact returns_intoString hschema hint hs
  . exact hprimitive .bool _ fun _ _ hvalue => hvalue
  . exact hprimitive .null _ fun _ _ hvalue => hvalue
  . exact hprimitive .integer _ fun _ _ hvalue => hvalue
  . exact hprimitive .double _ fun _ _ hvalue => hvalue
  . exact alike_fail trivial

theorem returns_collect_intoNamed (hc : Translating document M convert)
    (hkeys : document.hasUniqueKeys = true) (htame : Tame document)
    (hplace : Addressed document place)
    (hschema : Schema.ofJson place.node place.loc = .ok schema) (names : List String)
    (hobject : "object" ∉ names) (hint : NameHint) (hs : Kept document M O S s) :
    Returns (collect (names.map fun name => intoNamed convert schema place.loc hint name))
      (fun hs t => ∃ S', ShownAll document M O S s (.namedOneOf M place names) hs S' t) s := by
  induction names generalizing S s with
  | nil =>
    apply alike_pure
    refine ⟨S, .nil hs ?_⟩
    rintro A value ⟨name, hname, -⟩
    cases hname
  | cons name rest ih =>
    rw [List.mem_cons, not_or] at hobject
    obtain ⟨hne, hrest⟩ := hobject
    apply (returns_intoNamed hc hkeys htame hplace hschema name
      (fun heq => absurd heq.symm hne) hint hs).next
    rintro h t ⟨S', hshown⟩
    apply (ih hrest hshown.kept).next
    rintro hs u ⟨S'', hall⟩
    apply alike_pure
    refine ⟨S'', (hshown.cons hall).mono ?_⟩
    rintro A value ⟨name', hname', hfits⟩
    rcases List.mem_cons.1 hname' with rfl | hname'
    . exact Or.inl hfits
    . exact Or.inr ⟨name', hname', hfits⟩

theorem returns_unify {F : Sense} {types : List Handle}
    (hall : ShownAll document M O S s F types S' t) (hint : NameHint) (loc : Location) :
    Returns (Unification.unify types hint loc)
      (fun h u => ∃ S', Shown document M O S s F h S' u) t := by
  apply (Unification.covering_unify M types hint loc t hall.kept.sound hall.has).mono
  . intro h u hadded
    exact ⟨S', hall.joined hadded⟩
  . exact fun _ _ _ => trivial

theorem returns_intoNames (hc : Translating document M convert)
    (hkeys : document.hasUniqueKeys = true) (htame : Tame document)
    (hplace : Addressed document place)
    (hschema : Schema.ofJson place.node place.loc = .ok schema) {names : List String}
    (hform : schema.form place.loc = .ok (.named names)) (hint : NameHint)
    (hs : Kept document M O S s) :
    Returns (intoNames convert schema place.loc hint names)
      (fun h t => ∃ S', Shown document M O S s (.reads document M place) h S' t) s := by
  have htypes := (Schema.has_of_form hform).2.2
  have hreads : ∀ A value, place.Reads document M A value →
      ∃ name ∈ distinct names, place.FitsNamed M A name value := by
    intro A value hvalue
    obtain ⟨name, hname, hfits⟩ := Place.reads_named hschema hform hvalue
    exact ⟨name, mem_distinct.2 hname, hfits⟩
  unfold intoNames
  split
  . next name hnames =>
    have honly : ∀ A value, place.Reads document M A value → place.FitsNamed M A name value := by
      intro A value hvalue
      obtain ⟨name', hname', hfits⟩ := hreads A value hvalue
      rw [hnames, List.mem_singleton] at hname'
      rwa [← hname']
    apply (returns_intoNamed hc hkeys htame hplace hschema name _ hint hs).mono
    . rintro h t ⟨S', hshown⟩
      exact ⟨S', hshown.mono honly⟩
    . exact fun _ _ => id
    . rintro rfl
      exact honly
  . next hmany =>
    have hobject : "object" ∉ distinct names := by
      intro hmem
      -- All names are the same then, so there is one of them.
      have hsame := htame.listsObjectsAlone.single hplace hschema htypes (mem_distinct.1 hmem)
      apply hmany "object"
      have hall : ∀ name ∈ distinct names, name = "object" :=
        fun name hname => hsame name (mem_distinct.1 hname)
      have hnodup := nodup_distinct names
      generalize distinct names = found at hmem hall hnodup
      cases found with
      | nil => cases hmem
      | cons first rest =>
        cases rest with
        | nil => rw [hall first (List.mem_cons_self ..)]
        | cons second rest =>
          have hfirst := hall first (List.mem_cons_self ..)
          have hsecond := hall second (List.mem_cons_of_mem _ (List.mem_cons_self ..))
          rw [hfirst, hsecond] at hnodup
          exact absurd (List.mem_cons_self ..) (List.nodup_cons.1 hnodup).1
    apply (returns_collect_intoNamed hc hkeys htame hplace hschema _ hobject hint hs).next
    rintro types t ⟨S', hall⟩
    exact returns_unify (hall.mono hreads) hint place.loc

theorem returns_intoAlternatives (hc : Translating document M convert) (step : Nat → Step)
    (index : Nat) (nodes : List Json)
    (hnodes : ∀ (i : Nat) (node : Json), nodes[i]? = some node →
      Addressed document ⟨node, place.loc.child (step (index + i))⟩)
    (hint : NameHint) (hs : Kept document M O S s) :
    Returns (intoAlternatives convert step place.loc hint index nodes)
      (fun hs t => ∃ S', ShownAll document M O S s (.someOf place step index nodes) hs S' t) s := by
  induction nodes generalizing S s index with
  | nil =>
    apply alike_pure
    refine ⟨S, .nil hs ?_⟩
    rintro A value ⟨i, node, hnode, -⟩
    cases hnode
  | cons node rest ih =>
    have hplace := hnodes 0 node rfl
    have hrest : ∀ (i : Nat) (node : Json), rest[i]? = some node →
        Addressed document ⟨node, place.loc.child (step (index + 1 + i))⟩ := by
      intro i node hnode
      rw [Nat.add_assoc, Nat.add_comm 1]
      exact hnodes (i + 1) node hnode
    unfold intoAlternatives
    apply (hc _ hint.weaken s O S hplace hs).next
    rintro h t ⟨S', hshown⟩
    apply (ih (index + 1) hrest hshown.kept).next
    rintro hs u ⟨S'', hall⟩
    apply alike_pure
    refine ⟨S'', (hshown.cons hall).mono ?_⟩
    rintro A value ⟨i, node', hnode', hvalue⟩
    cases i with
    | zero =>
      cases hnode'
      exact Or.inl hvalue
    | succ i =>
      rw [Nat.add_comm i, ← Nat.add_assoc] at hvalue
      exact Or.inr ⟨i, node', hnode', hvalue⟩

theorem returns_intoChoice (hc : Translating document M convert) (hplace : Addressed document place)
    (hschema : Schema.ofJson place.node place.loc = .ok schema) {step : Nat → Step}
    {nodes : List Json} (hform : schema.form place.loc = .ok (.choice step nodes))
    (hint : NameHint) (hs : Kept document M O S s) :
    Returns (intoChoice convert step place.loc hint nodes)
      (fun h t => ∃ S', Shown document M O S s (.reads document M place) h S' t) s := by
  have haddressed : ∀ (i : Nat) (node : Json), nodes[i]? = some node →
      Addressed document ⟨node, place.loc.child (step (0 + i))⟩ := by
    intro i node hnode
    rw [Nat.zero_add]
    rcases Descent.alternatives?_eq_some (Schema.has_of_form hform).2.2.2 with
      ⟨rfl, hget⟩ | ⟨rfl, -, hget⟩
    . rw [Schema.get?_of_ofJson hschema] at hget
      exact hplace.inside (by simp) (Place.alternative_eq_ok.2 ⟨nodes, hget, hnode⟩)
    . rw [Schema.get?_of_ofJson hschema] at hget
      exact hplace.inside (by simp) (Place.alternative_eq_ok.2 ⟨nodes, hget, hnode⟩)
  unfold intoChoice
  apply (returns_intoAlternatives hc step 0 nodes haddressed hint hs).next
  rintro types t ⟨S', hall⟩
  apply returns_unify (hall.mono _) hint place.loc
  intro A value hvalue
  obtain ⟨i, node, hnode, hadmits⟩ := Place.reads_choice hschema hform hvalue
  refine ⟨i, node, hnode, ?_⟩
  rwa [Nat.zero_add]

theorem returns_intoReference (hc : Translating document M convert)
    (hplace : Addressed document place)
    (hschema : Schema.ofJson place.node place.loc = .ok schema) {text : String}
    (hform : schema.form place.loc = .ok (.reference text)) (hint : NameHint)
    (hs : Kept document M O S s) :
    Returns (intoReference convert text place hint)
      (fun h t => ∃ S', Shown document M O S s (.reads document M place) h S' t) s := by
  unfold intoReference
  apply alike_check_bind
  . exact fun _ _ => trivial
  . intro reference hreference
    apply alike_state_bind
    rw [hs.reads]
    apply alike_check_bind
    . exact fun _ _ => trivial
    . intro target htarget
      apply (hc target _ s O S (hplace.resolve htarget) hs).mono
      . rintro h t ⟨S', hshown⟩
        refine ⟨S', hshown.mono ?_⟩
        intro A value hvalue
        obtain ⟨reference', target', hreference', htarget', hadmits⟩ :=
          Place.reads_reference hschema hform hvalue
        rw [hreference] at hreference'
        cases hreference'
        rw [htarget] at htarget'
        cases htarget'
        exact hadmits
      . exact fun _ _ => id

theorem returns_intoForm (hc : Translating document M convert)
    (hkeys : document.hasUniqueKeys = true) (htame : Tame document)
    (hplace : Addressed document place)
    (hschema : Schema.ofJson place.node place.loc = .ok schema) {form : Form}
    (hform : schema.form place.loc = .ok form) (hint : NameHint) (hs : Kept document M O S s) :
    Returns (intoForm convert schema place hint form)
      (fun h t => ∃ S', Shown document M O S s (.reads document M place) h S' t) s := by
  cases form with
  | reference text => exact returns_intoReference hc hplace hschema hform hint hs
  | enum cases =>
    have hadds := Graph.adds_addEnum (M := M) hs.sound hint cases
    unfold intoForm
    exact returns_build hs
      (hadds.mono fun _ _ _ hvalue => Place.reads_enum hschema hform hvalue)
  | named names => exact returns_intoNames hc hkeys htame hplace hschema hform hint hs
  | choice step nodes => exact returns_intoChoice hc hplace hschema hform hint hs
  | anything =>
    have hadds := Graph.adds_addPrimitive (M := M) hs.sound .any
    unfold intoForm
    exact returns_build hs (hadds.mono fun _ _ _ _ => trivial)

theorem returns_intoSchema (hc : Translating document M convert)
    (hkeys : document.hasUniqueKeys = true) (htame : Tame document)
    (hplace : Addressed document place) (hint : NameHint) (hs : Kept document M O S s) :
    Returns (intoSchema convert place.node place.loc hint)
      (fun h t => ∃ S', Shown document M O S s (.reads document M place) h S' t) s := by
  rw [intoSchema_eq]
  apply alike_check_bind
  . exact fun _ _ => trivial
  . intro schema hschema
    apply alike_check_bind
    . exact fun _ _ => trivial
    . intro form hform
      exact returns_intoForm hc hkeys htame hplace hschema hform _ hs

end

end Descent

end SchemaGraph
