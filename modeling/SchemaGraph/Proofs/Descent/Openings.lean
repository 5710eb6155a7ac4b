import SchemaGraph.Proofs.Descent.Contract

/-!
This module contains what becomes of the record or the map that a place is recorded with while its
conversion is under way. The other types that the schema may name beside it are no records, no maps,
no unions and no nullables, so their unification passes it on: the type of the place is the record
or the map itself, or it wraps it.
-/

namespace SchemaGraph

namespace Graph

def Supersedes (g : Graph) (k h : Handle) : Prop :=
  h = k ∨ g.rank? h = some 0 ∧ g.Wraps h k

def IsLeaf (g : Graph) (object : Option Handle) (h : Handle) : Prop :=
  g.shape? h = some (.primitive .null) ∨
    ∃ rank, g.rank? h = some rank ∧ (rank = 0 → object = some h)

variable {g g' : Graph} {h k l object : Handle} {hs : List Handle}

theorem Wraps.eq_of_rank? {rank : Nat} (hwraps : g.Wraps h k) (hrank : g.rank? k = some rank) :
    h = k := by
  cases hwraps with
  | itself => rfl
  | member hshape hmem =>
    rw [rank?_of_shape? hshape] at hrank
    cases hrank
  | nullable hshape hinner =>
    rw [rank?_of_shape? hshape] at hrank
    cases hrank

theorem Supersedes.refl (g : Graph) (h : Handle) : g.Supersedes h h :=
  Or.inl rfl

theorem Supersedes.trans (hl : g.Supersedes l k) (hk : g.Supersedes k h) : g.Supersedes l h := by
  rcases hk with rfl | ⟨hobject, hwraps⟩
  . exact hl
  . rcases hl with rfl | ⟨hrank, hwraps'⟩
    . exact Or.inr ⟨hobject, hwraps⟩
    . obtain rfl := hwraps.eq_of_rank? hrank
      exact Or.inr ⟨hobject, hwraps'⟩

theorem Supersedes.evolve (hk : g.Supersedes k h) (hg : g.Evolves g') : g'.Supersedes k h := by
  rcases hk with rfl | ⟨hobject, hwraps⟩
  . exact .refl g' h
  . exact Or.inr ⟨hg.rank? h 0 hobject, hwraps.evolve hg⟩

theorem IsLeaf.evolve {object : Option Handle} (hh : g.IsLeaf object h) (hg : g.Evolves g') :
    g'.IsLeaf object h := by
  rcases hh with hnull | ⟨rank, hrank, hobject⟩
  . exact Or.inl (hg.shape? hnull rfl)
  . exact Or.inr ⟨rank, hg.rank? h rank hrank, hobject⟩

theorem IsLeaf.mono (hh : g.IsLeaf none h) (object : Option Handle) : g.IsLeaf object h := by
  rcases hh with hnull | ⟨rank, hrank, hobject⟩
  . exact Or.inl hnull
  . exact Or.inr ⟨rank, hrank, fun hzero => nomatch hobject hzero⟩

theorem IsLeaf.has {object : Option Handle} (hh : g.IsLeaf object h) : g.Has h := by
  rcases hh with hnull | ⟨rank, hrank, -⟩
  . exact has_of_shape? hnull
  . exact has_of_rank? hrank

theorem isLeaf_of_shape? {shape : Shape} {rank : Nat} (hshape : g.shape? h = some shape)
    (hrank : shape.rank? = some (rank + 1)) : g.IsLeaf none h :=
  Or.inr ⟨rank + 1, (rank?_of_shape? hshape).trans hrank, fun hzero => nomatch hzero⟩

theorem IsLeaf.shape {object : Option Handle} {shape : Shape} (hh : g.IsLeaf object h)
    (hshape : g.shape? h = some shape) :
    shape = .primitive .null ∨ ∃ rank, shape.rank? = some rank ∧ (rank = 0 → object = some h) := by
  unfold IsLeaf at hh
  rw [hshape, rank?_of_shape? hshape] at hh
  exact hh.imp_left Option.some.inj

theorem mem_leaves_iff {object : Option Handle} (hleaves : ∀ h ∈ hs, g.IsLeaf object h)
    {leaf : Leaf} :
    leaf ∈ g.leaves hs ↔ leaf.1 ∈ hs ∧ g.shape? leaf.1 = some leaf.2 := by
  have hopened : ∀ h ∈ hs, ∀ shape, g.shape? h = some shape →
      g.opened (g.size + 1) h = [(h, shape)] := by
    intro h hmem shape hshape
    rw [opened_succ _ _ hshape]
    rcases (hleaves h hmem).shape hshape with rfl | ⟨rank, hrank, -⟩
    . rfl
    . cases shape with
      | union members => cases hrank
      | nullable inner => cases hrank
      | _ => rfl
  unfold leaves
  rw [List.mem_flatMap]
  constructor
  . rintro ⟨h, hmem, hleaf⟩
    have hshape := (shape?_of_mem_opened hleaf).1
    obtain ⟨shape, hshape'⟩ := has_iff.1 (hleaves h hmem).has
    rw [hopened h hmem shape hshape', List.mem_singleton] at hleaf
    subst hleaf
    exact ⟨hmem, hshape⟩
  . rintro ⟨hmem, hshape⟩
    refine ⟨leaf.1, hmem, ?_⟩
    rw [hopened _ hmem _ hshape]
    exact List.mem_singleton_self _

theorem eq_object_of_mem_leaves (hleaf : ∀ h ∈ hs, g.IsLeaf (some object) h) {shape : Shape}
    (hmem : (h, shape) ∈ g.leaves hs) (hrank : shape.rank? = some 0) : h = object := by
  obtain ⟨hh, hshape⟩ := (mem_leaves_iff hleaf).1 hmem
  rcases (hleaf h hh).shape hshape with rfl | ⟨rank, hrank', hobject⟩
  . cases hrank
  . rw [hrank] at hrank'
    cases hrank'
    cases hobject rfl
    rfl

theorem hasAny_leaves {object : Option Handle} (hleaf : ∀ h ∈ hs, g.IsLeaf object h) :
    Leaves.has (g.leaves hs) .any = false := by
  rw [Bool.eq_false_iff]
  intro hany
  obtain ⟨leaf, hmem, hprimitive⟩ := Leaves.has_iff.1 hany
  obtain ⟨hh, hshape⟩ := (mem_leaves_iff hleaf).1 hmem
  rw [hprimitive] at hshape
  rcases (hleaf _ hh).shape hshape with hnull | ⟨rank, hrank, -⟩
  . cases hnull
  . cases hrank

theorem nodup_objects {object : Option Handle} (hleaf : ∀ h ∈ hs, g.IsLeaf object h) :
    (Leaves.records (g.leaves hs) ++ Leaves.maps (g.leaves hs)).Nodup := by
  apply List.nodup_append.2
  refine ⟨nodup_distinct _, nodup_distinct _, ?_⟩
  rintro h hrecord _ hmap rfl
  obtain ⟨fields, hfields⟩ := Leaves.mem_records_iff.1 hrecord
  obtain ⟨values, hvalues⟩ := Leaves.mem_maps_iff.1 hmap
  have hshape := ((mem_leaves_iff hleaf).1 hfields).2
  rw [((mem_leaves_iff hleaf).1 hvalues).2] at hshape
  cases hshape

theorem sole_of_isLeaf (hleaf : ∀ h ∈ hs, g.IsLeaf (some object) h) (hmem : object ∈ hs)
    (hobject : g.rank? object = some 0) :
    Unification.Leaves.Sole (g.leaves hs) object := by
  obtain ⟨shape, hshape, hzero⟩ := Option.bind_eq_some_iff.1 hobject
  have hself : (object, shape) ∈ g.leaves hs := (mem_leaves_iff hleaf).2 ⟨hmem, hshape⟩
  refine ⟨List.perm_singleton.1 ?_, hasAny_leaves hleaf⟩
  apply (List.perm_ext_iff_of_nodup (nodup_objects hleaf) (List.nodup_cons.2 ⟨by simp, .nil⟩)).2
  intro h
  rw [List.mem_append, Leaves.mem_records_iff, Leaves.mem_maps_iff, List.mem_singleton]
  constructor
  . rintro (⟨fields, hfields⟩ | ⟨values, hvalues⟩)
    . exact eq_object_of_mem_leaves hleaf hfields rfl
    . exact eq_object_of_mem_leaves hleaf hvalues rfl
  . rintro rfl
    cases shape with
    | record fields => exact Or.inl ⟨fields, hself⟩
    | map values => exact Or.inr ⟨values, hself⟩
    | primitive kind =>
      cases kind with
      | _ => cases hzero
    | _ => cases hzero

end Graph

namespace Unification

open Effect

theorem supersedes_unify {s : State} {types : List Handle} {object : Handle} (hint : NameHint)
    (loc : Location) (hsound : s.graph.Sound)
    (hleaf : ∀ type ∈ types, s.graph.IsLeaf (some object) type) (hmem : object ∈ types)
    (hobject : s.graph.rank? object = some 0) :
    Returns (unify types hint loc) (fun r t => s.Grown t ∧ t.graph.Supersedes r object) s := by
  match types with
  | [h] =>
    obtain rfl := List.mem_singleton.1 hmem
    unfold unify
    apply alike_state_bind
    rw [unifyWithin_single]
    exact alike_pure ⟨.refl hsound, .refl _ _⟩
  | h :: k :: rest =>
    apply (wraps_unify hint loc hsound fun type htype => (hleaf type htype).has).mono
    . rintro r t ⟨hgrown, hwraps⟩
      refine ⟨hgrown, Or.inr ⟨hgrown.evolves.rank? _ _ hobject, ?_⟩⟩
      exact hwraps object (Graph.sole_of_isLeaf hleaf hmem hobject)
    . exact fun _ _ _ => trivial

end Unification

namespace Descent

open Effect

structure Opened (document : Json) (loc : Location) (s : State) (h : Handle) (t : State) :
    Prop where
  valid : t.Valid document
  evolves : s.graph.Evolves t.graph
  memo : t.memo.get? loc = some h
  object : t.graph.rank? h = some 0

structure Beside (document : Json) (s : State) (h : Handle) (t : State) : Prop where
  frame : Frame s t
  valid : t.Valid document
  leaf : t.graph.IsLeaf none h

section

variable {document : Json} {convert : Convert} {place : Place} {schema : Schema} {s : State}
  {loc : Location}

def Framed (document : Json) (s : State) (_ : List Edge) (_ : Bool) (t : State) : Prop :=
  Frame s t ∧ t.Valid document

theorem flow_framed (hkeys : place.node.hasUniqueKeys = true) (hcloses : ¬place.Opens) :
    Flow document place s.graph (Framed document s) (fun _ _ => True) where
  keys := hkeys
  valid h := h.2
  grows h := h.1.graph
  grown h hst := ⟨h.1.grown hst, h.2.grown hst⟩
  opened hopens := absurd hopens hcloses
  filled := by
    rintro todo covered t h shape g ⟨hframe, hvalid⟩ hnew hfills hsound
    exact ⟨hframe.grow (hfills.grows hframe.graph hnew), hvalid.evolve hfills.evolves hsound⟩
  fault _ _ := trivial

theorem follows_framed (hc : Contract.frame.Met document convert convert) {edges : List Edge}
    (hnodes : ∀ edge ∈ edges, edge.target.node.hasUniqueKeys = true) :
    Follows edges (Framed document s) (fun _ _ => True) convert convert := by
  rintro edge hedge todo hint t ⟨hframe, hvalid⟩
  apply (hc edge.target hint t hvalid (hnodes edge hedge) trivial).mono
  . rintro h u ⟨hanswered, -⟩
    exact ⟨hanswered.toGained, hframe.trans hanswered.frame, hanswered.valid⟩
  . exact fun _ _ _ => trivial

theorem opened_of_fill {α : Type} {make : Graph → Handle × Graph} {shape : Shape} {inner : Effect α}
    {complete : Handle → α → Graph → Except Fault Graph} (hs : s.Valid document)
    (hgives : s.graph.Gives (make s.graph) shape) (hrank : shape.rank? = some 0)
    (hinner : ∀ t, t.Valid document → Returns inner (fun a u => Frame t u ∧ u.Valid document ∧
      ∀ h g, complete h a u.graph = .ok g → u.graph.Evolves g ∧ g.Sound) t) :
    Returns (do
      let h ← build make
      record loc h
      let a ← inner
      fill (complete h a)
      return h) (Opened document loc s) s := by
  -- What is asked for in the meantime finds the type that was opened.
  apply (alike_build (Q := fun h t => h = (make s.graph).1 ∧
    t = { s with graph := (make s.graph).2 }) ⟨rfl, rfl⟩).next
  generalize make s.graph = r at hgives
  rintro _ _ ⟨rfl, rfl⟩
  apply alike_change_bind
  have hopened : (State.recorded { s with graph := r.2 } loc r.1).Valid document :=
    (hs.evolve hgives.evolves hgives.sound).recorded loc hgives.has
  have hmemo : (State.recorded { s with graph := r.2 } loc r.1).memo.get? loc = some r.1 := by
    rw [State.get?_recorded, if_pos rfl]
  apply (hinner _ hopened).next
  rintro a t ⟨hframe, hvalid, hcomplete⟩
  apply alike_fill_bind
  . exact fun _ _ => trivial
  . intro g hg
    obtain ⟨hevolves, hsound⟩ := hcomplete _ g hg
    have hgrows := hframe.graph.evolves.trans hevolves
    apply alike_pure
    refine ⟨hvalid.evolve hevolves hsound, hgives.evolves.trans hgrows, hframe.memo hmemo, ?_⟩
    exact hgrows.rank? _ _ ((Graph.rank?_of_shape? hgives.shape).trans hrank)

theorem opened_intoRecord (hc : Contract.frame.Met document convert convert) (hs : s.Valid document)
    {properties : List (String × Json)}
    (hkeys : (Json.object properties).hasUniqueKeys = true) (hint : NameHint) :
    Returns (intoRecord convert schema properties loc hint) (Opened document loc s) s := by
  obtain ⟨hnodup, hnodes⟩ := Json.hasUniqueKeys_object_iff.1 hkeys
  unfold intoRecord
  apply alike_check_bind
  . exact fun _ _ => trivial
  intro required _
  have hgives : s.graph.Gives (s.graph.addRecord hint .pending) (.record .pending) :=
    Graph.gives_addRecord hs.sound hint (fun _ hmem => nomatch hmem) (fun _ heq => nomatch heq)
  apply opened_of_fill hs hgives rfl
  intro t ht
  -- The fields are asked for as if by a place that opens nothing.
  have hcloses : ¬Place.Opens ⟨.null, loc⟩ := by
    rintro ⟨schema, names, hschema, -⟩
    cases hschema
  have hfollows : Follows (Place.fieldEdges ⟨.null, loc⟩ properties) (Framed document t)
      (fun _ _ => True) convert convert := by
    apply follows_framed hc
    intro edge hedge
    obtain ⟨field, hfield, rfl⟩ := List.mem_map.1 hedge
    exact hnodes field.1 field.2 hfield
  have hframed : Framed document t (Place.fieldEdges ⟨.null, loc⟩ properties ++ []) true t :=
    ⟨.refl t, ht⟩
  apply (alike_intoFields (flow_framed rfl hcloses) required properties hfollows hframed).mono
  . rintro fields u ⟨hfields, hnames, hframe, hvalid⟩
    refine ⟨hframe, hvalid, ?_⟩
    intro h g hfill
    refine ⟨(Graph.fills_fillRecord hfill).evolves, hfields.sound.fillRecord ?_ ?_ hfill⟩
    . exact fun field hfield => hfields.has _ (List.mem_map_of_mem hfield)
    . rwa [hnames]
  . exact fun _ _ => id

theorem opened_intoMap (hc : Contract.frame.Met document convert convert) (hs : s.Valid document)
    {values : Json} (hkeys : values.hasUniqueKeys = true) (hint : NameHint) :
    Returns (intoMap convert values loc hint) (Opened document loc s) s := by
  unfold intoMap
  apply opened_of_fill hs (Graph.gives_addOpenMap hs.sound) rfl
  intro t ht
  apply (hc ⟨values, loc.child .additionalProperties⟩ _ t ht hkeys trivial).mono
  . rintro type u ⟨htype, -⟩
    refine ⟨htype.frame, htype.valid, ?_⟩
    intro h g hfill
    refine ⟨(Graph.fills_fillMap hfill).evolves, htype.valid.sound.fillMap ?_ hfill⟩
    exact htype.has type (List.mem_singleton_self _)
  . exact fun _ _ _ => trivial

theorem opened_intoObject (hc : Contract.frame.Met document convert convert) (hs : s.Valid document)
    (hkeys : place.node.hasUniqueKeys = true)
    (hschema : Schema.ofJson place.node place.loc = .ok schema)
    (hopens : place.opens schema "object" = true) (hint : NameHint) :
    Returns (intoObject convert schema place.loc hint) (Opened document place.loc s) s := by
  unfold intoObject
  apply alike_check_bind
  . exact fun _ _ => trivial
  intro properties? hproperties
  unfold Place.opens at hopens
  rw [hproperties] at hopens
  cases properties? with
  | some properties =>
    have hget := Schema.properties?_eq_some hproperties
    rw [Schema.get?_of_ofJson hschema] at hget
    exact opened_intoRecord hc hs (Json.hasUniqueKeys_of_field? hkeys hget) hint
  | none =>
    cases hadditional : schema.additional? with
    | none =>
      rw [hadditional] at hopens
      cases hopens
    | some additional =>
      rw [hadditional] at hopens
      cases additional with
      | schema values =>
        obtain ⟨fields, rfl, hget⟩ := Schema.additional?_eq_schema hadditional
        rw [Schema.get?_of_ofJson hschema] at hget
        exact opened_intoMap hc hs (Json.hasUniqueKeys_of_field? hkeys hget) hint
      | allowed => cases hopens
      | forbidden => cases hopens

theorem beside_of_gives (hs : s.Valid document) {make : Graph → Handle × Graph} {shape : Shape}
    (hgives : s.graph.Gives (make s.graph) shape) (hclosed : shape.isOpen = false)
    (hleaf : ∀ g h, Graph.shape? g h = some shape → g.IsLeaf none h) :
    Returns (build make) (Beside document s) s := by
  apply alike_build
  have hgrown : s.Grown { s with graph := (make s.graph).2 } := .build (hgives.built hclosed)
  exact ⟨(Frame.refl s).grown hgrown, hs.grown hgrown, hleaf _ _ hgives.shape⟩

theorem beside_addPrimitive (hs : s.Valid document) {kind : Primitive} (hkind : kind ≠ .any) :
    Returns (build fun g => g.addPrimitive kind) (Beside document s) s := by
  apply beside_of_gives hs (Graph.gives_addPrimitive hs.sound kind) rfl
  intro g h hshape
  cases kind with
  | any => contradiction
  | null => exact Or.inl hshape
  | _ => exact Graph.isLeaf_of_shape? hshape rfl

theorem beside_intoArray (hc : Contract.frame.Met document convert convert) (hs : s.Valid document)
    (hkeys : place.node.hasUniqueKeys = true)
    (hschema : Schema.ofJson place.node place.loc = .ok schema) (hint : NameHint) :
    Returns (intoArray convert schema place.loc hint) (Beside document s) s := by
  have harray : ∀ items t, Frame s t ∧ t.Valid document ∧ t.graph.Has items →
      Returns (build fun g => g.addArray items) (Beside document s) t := by
    rintro items t ⟨hframe, hvalid, hitems⟩
    apply (beside_of_gives hvalid (Graph.gives_addArray hvalid.sound hitems) rfl
      fun g h hshape => Graph.isLeaf_of_shape? hshape rfl).mono
    . exact fun h u hu => ⟨hframe.trans hu.frame, hu.valid, hu.leaf⟩
    . exact fun _ _ => id
  unfold intoArray
  apply alike_check_bind
  . exact fun _ _ => trivial
  intro items? hitems
  cases items? with
  | none =>
    have hany : Returns (build fun g => g.addPrimitive .any)
        (fun items t => Frame s t ∧ t.Valid document ∧ t.graph.Has items) s := by
      apply alike_build
      have hgives := Graph.gives_addPrimitive hs.sound .any
      have hgrown : s.Grown { s with graph := (s.graph.addPrimitive .any).2 } :=
        .build (hgives.built rfl)
      exact ⟨(Frame.refl s).grown hgrown, hs.grown hgrown, hgives.has⟩
    exact hany.next harray
  | some node =>
    obtain ⟨fields, rfl, hget⟩ := Schema.items?_eq_some hitems
    rw [Schema.get?_of_ofJson hschema] at hget
    have hnode := Json.hasUniqueKeys_of_field? hkeys hget
    have hconvert := hc ⟨.object fields, place.loc.child .items⟩ hint.singular s hs hnode trivial
    apply (hconvert.mono (fun items t ht => ?_) (fun _ _ _ => trivial)).next harray
    exact ⟨ht.1.frame, ht.1.valid, ht.1.has items (List.mem_singleton_self _)⟩

theorem beside_intoNamed (hc : Contract.frame.Met document convert convert) (hs : s.Valid document)
    (hkeys : place.node.hasUniqueKeys = true)
    (hschema : Schema.ofJson place.node place.loc = .ok schema) (hint : NameHint) {name : String}
    (hname : name ≠ "object") :
    Returns (intoNamed convert schema place.loc hint name) (Beside document s) s := by
  unfold intoNamed
  split
  . contradiction
  . exact beside_intoArray hc hs hkeys hschema hint
  . unfold intoString
    split
    . exact beside_of_gives hs (Graph.gives_addString hs.sound hint) rfl
        fun g h hshape => Graph.isLeaf_of_shape? hshape rfl
    . exact beside_addPrimitive hs (by simp)
    . exact beside_addPrimitive hs (by simp)
    . exact beside_addPrimitive hs (by simp)
    . exact alike_fail trivial
  . exact beside_addPrimitive hs (by simp)
  . exact beside_addPrimitive hs (by simp)
  . exact beside_addPrimitive hs (by simp)
  . exact beside_addPrimitive hs (by simp)
  . exact alike_fail trivial

theorem beside_collect (hc : Contract.frame.Met document convert convert) (hs : s.Valid document)
    (hkeys : place.node.hasUniqueKeys = true)
    (hschema : Schema.ofJson place.node place.loc = .ok schema) (hint : NameHint)
    (names : List String) (hnames : "object" ∉ names) :
    Returns (collect (names.map fun name => intoNamed convert schema place.loc hint name))
      (fun types t => Frame s t ∧ t.Valid document ∧
        ∀ type ∈ types, t.graph.IsLeaf none type) s := by
  induction names generalizing s with
  | nil => exact alike_pure ⟨.refl s, hs, fun _ hmem => nomatch hmem⟩
  | cons name rest ih =>
    rw [List.mem_cons, not_or] at hnames
    obtain ⟨hname, hrest⟩ := hnames
    apply (beside_intoNamed hc hs hkeys hschema hint (Ne.symm hname)).next
    intro type t htype
    apply (ih htype.valid hrest).next
    rintro types u ⟨hframe, hvalid, htypes⟩
    apply alike_pure
    refine ⟨htype.frame.trans hframe, hvalid, List.forall_mem_cons.2 ⟨?_, htypes⟩⟩
    exact htype.leaf.evolve hframe.graph.evolves

theorem opened_collect (hc : Contract.frame.Met document convert convert) (hs : s.Valid document)
    (hkeys : place.node.hasUniqueKeys = true)
    (hschema : Schema.ofJson place.node place.loc = .ok schema)
    (hopens : place.opens schema "object" = true) (hint : NameHint) (names : List String)
    (hnodup : names.Nodup) (hmem : "object" ∈ names) :
    Returns (collect (names.map fun name => intoNamed convert schema place.loc hint name))
      (fun types t => ∃ object ∈ types, Opened document place.loc s object t ∧
        ∀ type ∈ types, t.graph.IsLeaf (some object) type) s := by
  induction names generalizing s with
  | nil => cases hmem
  | cons name rest ih =>
    obtain ⟨hname, hrest⟩ := List.nodup_cons.1 hnodup
    rcases List.mem_cons.1 hmem with rfl | hlater
    . apply (opened_intoObject hc hs hkeys hschema hopens hint).next
      intro object t hobject
      apply (beside_collect hc hobject.valid hkeys hschema hint rest hname).next
      rintro types u ⟨hframe, hvalid, htypes⟩
      have hrank := hframe.graph.evolves.rank? _ _ hobject.object
      apply alike_pure
      refine ⟨object, List.mem_cons_self .., ⟨hvalid, hobject.evolves.trans hframe.graph.evolves,
        hframe.memo hobject.memo, hrank⟩, List.forall_mem_cons.2 ⟨?_, ?_⟩⟩
      . exact Or.inr ⟨0, hrank, fun _ => rfl⟩
      . exact fun type htype => (htypes type htype).mono (some object)
    . have hne : name ≠ "object" := by
        rintro rfl
        exact hname hlater
      apply (beside_intoNamed hc hs hkeys hschema hint hne).next
      intro type t htype
      apply (ih htype.valid hrest hlater).next
      rintro types u ⟨object, hobject, hopened, htypes⟩
      apply alike_pure
      refine ⟨object, List.mem_cons_of_mem _ hobject, ⟨hopened.valid,
        htype.frame.graph.evolves.trans hopened.evolves, hopened.memo, hopened.object⟩,
        List.forall_mem_cons.2 ⟨?_, htypes⟩⟩
      exact (htype.leaf.evolve hopened.evolves).mono (some object)

def Retained (place : Place) (_ : State) (h : Handle) (t : State) : Prop :=
  place.Opens → ∃ object, (t.types place.loc).head? = some object ∧ t.graph.Supersedes h object

theorem retained_intoNames (hc : Contract.frame.Met document convert convert)
    (hs : s.Valid document) (hkeys : place.node.hasUniqueKeys = true)
    (hschema : Schema.ofJson place.node place.loc = .ok schema) {names : List String}
    (hname : "object" ∈ names) (hopens : place.opens schema "object" = true) (hint : NameHint) :
    Returns (intoNames convert schema place.loc hint names) (fun h t => ∃ object,
      (t.types place.loc).head? = some object ∧ t.graph.Supersedes h object) s := by
  have hmem : "object" ∈ distinct names := mem_distinct.2 hname
  unfold intoNames
  split
  . next name hnames =>
    rw [hnames] at hmem
    obtain rfl := List.mem_singleton.1 hmem
    apply (opened_intoObject hc hs hkeys hschema hopens hint).mono _ (fun _ _ => id)
    intro h t hopened
    exact ⟨h, (hopened.valid.latest _).symm.trans hopened.memo, .refl _ _⟩
  . apply (opened_collect hc hs hkeys hschema hopens hint _ (nodup_distinct _) hmem).next
    rintro types t ⟨object, hobject, hopened, htypes⟩
    apply (Unification.supersedes_unify hint place.loc hopened.valid.sound htypes hobject
      hopened.object).mono
    . rintro h u ⟨hgrown, hsupersedes⟩
      refine ⟨object, ?_, hsupersedes⟩
      rw [hgrown.types, ← hopened.valid.latest, hopened.memo]
    . exact fun _ _ => id

theorem makes_retained (document : Json) : Makes document Retained := by
  intro convert hc place hint s hs
  by_cases hplace : place.Opens
  . obtain ⟨schema, names, hschema, hform, name, hname, hopens⟩ := hplace
    obtain rfl := Place.name_of_opens hopens
    apply returns_of_form hschema hform
    intro hint
    apply (retained_intoNames hc (hs.valid.begun place) hs.keys hschema hname hopens hint).mono
    . exact fun h t hretained _ => hretained
    . exact fun _ _ => id
  . exact returns_of_forall fun h t hopens => absurd hopens hplace

end

end Descent

end SchemaGraph
