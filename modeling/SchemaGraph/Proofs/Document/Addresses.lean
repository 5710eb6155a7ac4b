import SchemaGraph.Proofs.Document.Forms
import SchemaGraph.Proofs.Document.UniqueKeys

/-!
This module contains the addresses of places. A place is addressed in a document when its location
begins at the root, never goes back to the root and leads to exactly this place. Every step and
every edge goes from an addressed place to an addressed place, so the two ways in which locations
are built agree: step by step along the edges, and all at once along a reference.
-/

namespace SchemaGraph

structure Addressed (document : Json) (place : Place) : Prop where
  fromRoot : ∃ tail, place.loc.steps = .root :: tail ∧ Step.root ∉ tail
  resolves : Place.resolve document ⟨document, .root⟩ place.loc = .ok place

namespace Place

theorem step_of_ne_root {document : Json} {place : Place} {step : Step} (h : step ≠ .root) :
    place.step document step = (do
      let node ← place.inside document step
      return ⟨node, place.loc.child step⟩) := by
  unfold Place.step
  split
  . contradiction
  . rfl

theorem loc_of_step {document : Json} {place next : Place} {step : Step} (h : step ≠ .root)
    (hstep : place.step document step = .ok next) : next.loc = place.loc.child step := by
  rw [step_of_ne_root h] at hstep
  cases hinside : place.inside document step with
  | error fault =>
    rw [hinside] at hstep
    cases hstep
  | ok node =>
    rw [hinside] at hstep
    cases hstep
    rfl

theorem step_of_inside {document node : Json} {place : Place} {step : Step} (h : step ≠ .root)
    (hinside : place.inside document step = .ok node) :
    place.step document step = .ok ⟨node, place.loc.child step⟩ := by
  rw [step_of_ne_root h, hinside]
  rfl

theorem inside_of_step {document : Json} {place next : Place} {step : Step} (h : step ≠ .root)
    (hstep : place.step document step = .ok next) :
    place.inside document step = .ok next.node := by
  rw [step_of_ne_root h] at hstep
  cases hinside : place.inside document step with
  | error fault =>
    rw [hinside] at hstep
    cases hstep
  | ok node =>
    rw [hinside] at hstep
    cases hstep
    rfl

theorem alternative_eq_ok {place : Place} {keyword : Keyword} {index : Nat} {node : Json} :
    place.alternative keyword index = .ok node ↔
      ∃ nodes, place.node.field? keyword.text = some (.array nodes) ∧
        nodes[index]? = some node := by
  unfold alternative
  dsimp only
  constructor
  . intro h
    split at h
    . next found hfound =>
      cases h
      obtain ⟨nodes, hnodes, hindex⟩ := Option.bind_eq_some_iff.1 hfound
      obtain ⟨value, hvalue, harray⟩ := Option.bind_eq_some_iff.1 hnodes
      cases value with
      | array elements =>
        cases harray
        exact ⟨_, hvalue, hindex⟩
      | _ => simp [Json.array?] at harray
    . cases h
  . rintro ⟨nodes, hnodes, hindex⟩
    simp [hnodes, hindex, Json.array?]

theorem inner_eq_ok {place : Place} {keyword : Keyword} {node : Json} :
    place.inner keyword = .ok node ↔
      ∃ fields, node = .object fields ∧ place.node.field? keyword.text = some (.object fields) := by
  unfold inner
  constructor
  . intro h
    split at h
    . next fields hfields =>
      cases h
      exact ⟨fields, rfl, hfields⟩
    . cases h
  . rintro ⟨fields, rfl, hfields⟩
    rw [hfields]

theorem bind_field?_eq_some {place : Place} {keyword : Keyword} {name : String} {node : Json} :
    (place.node.field? keyword.text).bind (fun group => group.field? name) = some node ↔
      ∃ fields, place.node.field? keyword.text = some (.object fields) ∧
        Entries.get? fields name = some node := by
  constructor
  . intro h
    obtain ⟨group, hgroup, hname⟩ := Option.bind_eq_some_iff.1 h
    cases group with
    | object fields => exact ⟨fields, hgroup, hname⟩
    | _ => simp [Json.field?] at hname
  . rintro ⟨fields, hfields, hname⟩
    rw [hfields]
    exact hname

theorem definition_eq_ok {place : Place} {name : String} {node : Json} :
    place.definition name = .ok node ↔
      ∃ fields, place.node.field? Keyword.definitions.text = some (.object fields) ∧
        Entries.get? fields name = some node ∧ node.isObject = true := by
  unfold definition
  constructor
  . intro h
    split at h
    . next fields hfields =>
      cases h
      obtain ⟨group, hgroup, hname⟩ := bind_field?_eq_some.1 hfields
      exact ⟨group, hgroup, hname, rfl⟩
    . cases h
  . rintro ⟨fields, hfields, hname, hobject⟩
    rw [bind_field?_eq_some.2 ⟨fields, hfields, hname⟩]
    cases node with
    | object inner => rfl
    | _ => simp [Json.isObject] at hobject

theorem property_eq_ok {place : Place} {name : String} {node : Json} :
    place.property name = .ok node ↔
      ∃ fields, place.node.field? Keyword.properties.text = some (.object fields) ∧
        Entries.get? fields name = some node := by
  unfold property
  constructor
  . intro h
    split at h
    . next found hfound =>
      cases h
      exact bind_field?_eq_some.1 hfound
    . cases h
  . intro h
    rw [bind_field?_eq_some.2 h]

theorem hasUniqueKeys_of_inside {document node : Json} {place : Place} {step : Step}
    (hdocument : document.hasUniqueKeys = true) (hplace : place.node.hasUniqueKeys = true)
    (h : place.inside document step = .ok node) : node.hasUniqueKeys = true := by
  have hgroup : ∀ {keyword : Keyword} {fields : List (String × Json)} {name : String},
      place.node.field? keyword.text = some (.object fields) →
      Entries.get? fields name = some node → node.hasUniqueKeys = true := by
    intro keyword fields name hfields hname
    have hfields := Json.hasUniqueKeys_of_field? hplace hfields
    exact (Json.hasUniqueKeys_object_iff.1 hfields).2 name node (Entries.mem_of_get? hname)
  have hlist : ∀ {keyword : Keyword} {nodes : List Json} {index : Nat},
      place.node.field? keyword.text = some (.array nodes) →
      nodes[index]? = some node → node.hasUniqueKeys = true := by
    intro keyword nodes index hnodes hindex
    have hnodes := Json.hasUniqueKeys_of_field? hplace hnodes
    exact Json.hasUniqueKeys_of_array hnodes rfl (List.mem_of_getElem? hindex)
  cases step with
  | root =>
    cases h
    exact hdocument
  | definition name =>
    obtain ⟨fields, hfields, hname, -⟩ := definition_eq_ok.1 h
    exact hgroup hfields hname
  | property name =>
    obtain ⟨fields, hfields, hname⟩ := property_eq_ok.1 h
    exact hgroup hfields hname
  | oneOf index | anyOf index =>
    obtain ⟨nodes, hnodes, hindex⟩ := alternative_eq_ok.1 h
    exact hlist hnodes hindex
  | additionalProperties | items =>
    obtain ⟨fields, rfl, hfields⟩ := inner_eq_ok.1 h
    exact Json.hasUniqueKeys_of_field? hplace hfields

theorem hasUniqueKeys_of_step {document : Json} {place next : Place} {step : Step}
    (hdocument : document.hasUniqueKeys = true) (hplace : place.node.hasUniqueKeys = true)
    (h : place.step document step = .ok next) : next.node.hasUniqueKeys = true := by
  by_cases hroot : step = .root
  . subst hroot
    cases h
    exact hdocument
  . exact hasUniqueKeys_of_inside hdocument hplace (inside_of_step hroot h)

theorem walk_cons_eq_ok {document : Json} {place last : Place} {step : Step} {rest : List Step}
    (h : walk document (step :: rest) place = .ok last) :
    ∃ next, place.step document step = .ok next ∧ walk document rest next = .ok last := by
  rw [walk_cons] at h
  cases hstep : place.step document step with
  | error fault =>
    rw [hstep] at h
    cases h
  | ok next =>
    rw [hstep] at h
    exact ⟨next, rfl, h⟩

theorem walk_eq_error {document : Json} {place : Place} {steps : List Step} {fault : Fault}
    (h : walk document steps place = .error fault) :
    ∃ taken step rest middle, steps = taken ++ step :: rest ∧
      walk document taken place = .ok middle ∧ middle.step document step = .error fault := by
  induction steps generalizing place with
  | nil => cases h
  | cons step rest ih =>
    rw [walk_cons] at h
    cases hstep : place.step document step with
    | error fault' =>
      rw [hstep] at h
      cases h
      exact ⟨[], step, rest, place, rfl, rfl, hstep⟩
    | ok next =>
      rw [hstep] at h
      obtain ⟨taken, stuck, rest', middle, rfl, hwalk, hstuck⟩ := ih h
      refine ⟨step :: taken, stuck, rest', middle, rfl, ?_, hstuck⟩
      rw [walk_cons, hstep]
      exact hwalk

theorem hasUniqueKeys_of_walk {document : Json} {place last : Place} {steps : List Step}
    (hdocument : document.hasUniqueKeys = true) (hplace : place.node.hasUniqueKeys = true)
    (h : walk document steps place = .ok last) : last.node.hasUniqueKeys = true := by
  induction steps generalizing place with
  | nil =>
    cases h
    exact hplace
  | cons step rest ih =>
    obtain ⟨next, hstep, hrest⟩ := walk_cons_eq_ok h
    exact ih (hasUniqueKeys_of_step hdocument hplace hstep) hrest

end Place

namespace Addressed

variable {document : Json} {place next : Place}

theorem root : Addressed document ⟨document, .root⟩ :=
  ⟨⟨[], rfl, List.not_mem_nil⟩, rfl⟩

theorem unique {place' : Place} (h : Addressed document place) (h' : Addressed document place')
    (hloc : place.loc = place'.loc) : place = place' := by
  have heq := h.resolves
  rw [hloc, h'.resolves] at heq
  cases heq
  rfl

theorem step {step : Step} (h : Addressed document place)
    (hstep : place.step document step = .ok next) : Addressed document next := by
  by_cases hroot : step = .root
  . subst hroot
    cases hstep
    exact root
  . have hloc := Place.loc_of_step hroot hstep
    obtain ⟨tail, htail, hmem⟩ := h.fromRoot
    constructor
    . refine ⟨tail ++ [step], ?_, ?_⟩
      . rw [hloc, Location.child_steps, htail, List.cons_append]
      . simp [hmem, Ne.symm hroot]
    . unfold Place.resolve
      rw [hloc, Location.child_steps, Place.walk_append]
      have hwalk := h.resolves
      unfold Place.resolve at hwalk
      rw [hwalk]
      show Place.walk document [step] place = .ok next
      rw [Place.walk_cons, hstep]
      rfl

theorem walk {steps : List Step} (h : Addressed document place)
    (hwalk : Place.walk document steps place = .ok next) : Addressed document next := by
  induction steps generalizing place with
  | nil =>
    cases hwalk
    exact h
  | cons s rest ih =>
    obtain ⟨middle, hstep, hrest⟩ := Place.walk_cons_eq_ok hwalk
    exact ih (h.step hstep) hrest

theorem resolve {target : Location} (h : Addressed document place)
    (hresolve : place.resolve document target = .ok next) : Addressed document next :=
  h.walk hresolve

theorem inside {step : Step} {node : Json} (h : Addressed document place) (hroot : step ≠ .root)
    (hinside : place.inside document step = .ok node) :
    Addressed document ⟨node, place.loc.child step⟩ :=
  h.step (Place.step_of_inside hroot hinside)

theorem child_ne_root (h : Addressed document place) (step : Step) :
    place.loc.child step ≠ .root := by
  obtain ⟨tail, htail, -⟩ := h.fromRoot
  intro hloc
  have hsteps := congrArg Location.steps hloc
  rw [Location.child_steps, htail] at hsteps
  cases tail with
  | nil => cases hsteps
  | cons => cases hsteps

theorem hasUniqueKeys (hkeys : document.hasUniqueKeys = true) (h : Addressed document place) :
    place.node.hasUniqueKeys = true :=
  Place.hasUniqueKeys_of_walk hkeys hkeys h.resolves

end Addressed

namespace Place

theorem mem_choiceEdges {place : Place} {step : Nat → Step} {index : Nat} {nodes : List Json}
    {edge : Edge} (h : edge ∈ place.choiceEdges step index nodes) :
    ∃ i node, nodes[i]? = some node ∧
      edge = ⟨.alternative, false, ⟨node, place.loc.child (step (index + i))⟩⟩ := by
  induction nodes generalizing index with
  | nil => cases h
  | cons node rest ih =>
    rcases List.mem_cons.1 h with rfl | h
    . exact ⟨0, node, rfl, rfl⟩
    . obtain ⟨i, node', hnode, hedge⟩ := ih h
      refine ⟨i + 1, node', hnode, ?_⟩
      rw [hedge, Nat.add_right_comm, Nat.add_assoc]

theorem mem_typeEdges {place : Place} {schema : Schema} {covered : Bool} {names : List String}
    {edge : Edge} (h : edge ∈ place.typeEdges schema covered names) :
    ∃ covered, ∃ name ∈ names, edge ∈ place.namedEdges schema covered name := by
  induction names generalizing covered with
  | nil => cases h
  | cons name rest ih =>
    rcases List.mem_append.1 h with h | h
    . exact ⟨covered, name, List.mem_cons_self .., h⟩
    . obtain ⟨covered, name, hname, hedge⟩ := ih h
      exact ⟨covered, name, List.mem_cons_of_mem _ hname, hedge⟩

end Place

def Step.link? : Step → Option Link
  | .oneOf _ => some .alternative
  | .anyOf _ => some .alternative
  | .property _ => some .property
  | .additionalProperties => some .values
  | .items => some .items
  | _ => none

def Step.IsReferring (step : Step) : Prop :=
  step = .root ∨ ∃ name, step = .definition name

theorem Reference.isReferring_of_steps? {parts : List (List Char)} {steps : List Step}
    (h : Reference.steps? parts = some steps) : ∀ step ∈ steps, step.IsReferring := by
  fun_induction Reference.steps? parts generalizing steps with
  | case1 =>
    cases h
    exact fun _ hmem => nomatch hmem
  | case2 rest ih =>
    obtain ⟨steps', hsteps', rfl⟩ := Option.map_eq_some_iff.1 h
    exact List.forall_mem_cons.2 ⟨Or.inl rfl, ih hsteps'⟩
  | case3 => cases h
  | case4 => cases h
  | case5 name rest _ _ ih =>
    obtain ⟨steps', hsteps', rfl⟩ := Option.map_eq_some_iff.1 h
    exact List.forall_mem_cons.2 ⟨Or.inr ⟨_, rfl⟩, ih hsteps'⟩
  | case6 => cases h

theorem Reference.isReferring_of_ofText {text : String} {reference : Reference}
    (h : Reference.ofText text = .ok reference) :
    reference.target.steps ≠ [] ∧ ∀ step ∈ reference.target.steps, step.IsReferring := by
  unfold Reference.ofText at h
  split at h
  . cases h
  . next steps hsteps =>
    split at h
    . cases h
    . next last hlast =>
      cases h
      refine ⟨?_, isReferring_of_steps? hsteps⟩
      rintro rfl
      cases hlast

namespace Place

variable {document : Json} {place : Place} {schema : Schema} {edge : Edge}

theorem exists_step_of_choiceEdge {loc : Location} {step : Nat → Step} {nodes : List Json}
    (hschema : Schema.ofJson place.node place.loc = .ok schema)
    (hnodes : Descent.alternatives? schema loc = .ok (some (step, nodes)))
    (hedge : edge ∈ place.choiceEdges step 0 nodes) :
    ∃ step, step.link? = some edge.link ∧ place.step document step = .ok edge.target := by
  obtain ⟨i, node, hnode, rfl⟩ := mem_choiceEdges hedge
  rw [Nat.zero_add]
  rcases Descent.alternatives?_eq_some hnodes with ⟨rfl, hget⟩ | ⟨rfl, -, hget⟩
  . rw [Schema.get?_of_ofJson hschema] at hget
    refine ⟨.oneOf i, rfl, step_of_inside (by simp) ?_⟩
    exact alternative_eq_ok.2 ⟨nodes, hget, hnode⟩
  . rw [Schema.get?_of_ofJson hschema] at hget
    refine ⟨.anyOf i, rfl, step_of_inside (by simp) ?_⟩
    exact alternative_eq_ok.2 ⟨nodes, hget, hnode⟩

theorem exists_step_of_itemEdge {covered : Bool}
    (hschema : Schema.ofJson place.node place.loc = .ok schema)
    (hedge : edge ∈ place.itemEdges schema covered) :
    ∃ step, step.link? = some edge.link ∧ place.step document step = .ok edge.target := by
  unfold itemEdges at hedge
  split at hedge
  . next node hitems =>
    rw [List.mem_singleton] at hedge
    subst hedge
    obtain ⟨fields, rfl, hget⟩ := Schema.items?_eq_some hitems
    rw [Schema.get?_of_ofJson hschema] at hget
    refine ⟨.items, rfl, step_of_inside (by simp) ?_⟩
    exact inner_eq_ok.2 ⟨fields, rfl, hget⟩
  . cases hedge

theorem exists_step_of_objectEdge (hkeys : place.node.hasUniqueKeys = true)
    (hschema : Schema.ofJson place.node place.loc = .ok schema)
    (hedge : edge ∈ place.objectEdges schema) :
    ∃ step, step.link? = some edge.link ∧ place.step document step = .ok edge.target := by
  unfold objectEdges at hedge
  split at hedge
  . next fields hproperties =>
    obtain ⟨⟨name, node⟩, hfield, rfl⟩ := List.mem_map.1 hedge
    have hget := Schema.properties?_eq_some hproperties
    rw [Schema.get?_of_ofJson hschema] at hget
    have hgroup := Json.hasUniqueKeys_of_field? hkeys hget
    have hname := Entries.get?_of_mem (Json.hasUniqueKeys_object_iff.1 hgroup).1 hfield
    refine ⟨.property name, rfl, step_of_inside (by simp) ?_⟩
    exact property_eq_ok.2 ⟨fields, hget, hname⟩
  . split at hedge
    . next values hadditional =>
      rw [List.mem_singleton] at hedge
      subst hedge
      obtain ⟨fields, rfl, hget⟩ := Schema.additional?_eq_schema hadditional
      rw [Schema.get?_of_ofJson hschema] at hget
      refine ⟨.additionalProperties, rfl, step_of_inside (by simp) ?_⟩
      exact inner_eq_ok.2 ⟨fields, rfl, hget⟩
    . cases hedge
  . cases hedge

theorem mem_referenceEdges {text : String} (hedge : edge ∈ place.referenceEdges document text) :
    ∃ reference target, Reference.ofText text = .ok reference ∧
      place.resolve document reference.target = .ok target ∧
      edge = ⟨.reference, false, target⟩ := by
  unfold referenceEdges at hedge
  split at hedge
  . next reference hreference =>
    split at hedge
    . next target htarget =>
      exact ⟨reference, target, hreference, htarget, List.mem_singleton.1 hedge⟩
    . cases hedge
  . cases hedge

theorem exists_steps_of_referenceEdge {text : String}
    (hedge : edge ∈ place.referenceEdges document text) :
    edge.link = .reference ∧ ∃ steps : List Step, steps ≠ [] ∧
      (∀ step ∈ steps, step.IsReferring) ∧ walk document steps place = .ok edge.target := by
  obtain ⟨reference, target, hreference, hresolve, rfl⟩ := mem_referenceEdges hedge
  obtain ⟨hnonempty, hreferring⟩ := Reference.isReferring_of_ofText hreference
  exact ⟨rfl, reference.target.steps, hnonempty, hreferring, hresolve⟩

theorem edge_cases (hkeys : place.node.hasUniqueKeys = true) (hedge : edge ∈ place.edges document) :
    (edge.link = .reference ∧ ∃ steps : List Step, steps ≠ [] ∧
      (∀ step ∈ steps, step.IsReferring) ∧ walk document steps place = .ok edge.target) ∨
    ∃ step, step.link? = some edge.link ∧ place.step document step = .ok edge.target := by
  unfold edges at hedge
  split at hedge
  . next schema hschema =>
    split at hedge
    . next form hform =>
      cases form with
      | reference text => exact Or.inl (exists_steps_of_referenceEdge hedge)
      | enum cases => cases hedge
      | named names =>
        right
        obtain ⟨covered, name, -, hnamed⟩ := mem_typeEdges hedge
        unfold namedEdges at hnamed
        split at hnamed
        . exact exists_step_of_itemEdge hschema hnamed
        . split at hnamed
          . exact exists_step_of_objectEdge hkeys hschema hnamed
          . cases hnamed
      | choice step nodes =>
        right
        exact exists_step_of_choiceEdge hschema (Schema.has_of_form hform).2.2.2 hedge
      | anything => cases hedge
    . cases hedge
  . cases hedge

theorem exists_walk_of_edge (hkeys : place.node.hasUniqueKeys = true)
    (hedge : edge ∈ place.edges document) :
    ∃ steps, walk document steps place = .ok edge.target := by
  rcases edge_cases hkeys hedge with ⟨-, steps, -, -, hwalk⟩ | ⟨step, -, hstep⟩
  . exact ⟨steps, hwalk⟩
  . refine ⟨[step], ?_⟩
    rw [walk_cons, hstep]
    rfl

theorem hasUniqueKeys_of_edge (hdocument : document.hasUniqueKeys = true)
    (hkeys : place.node.hasUniqueKeys = true) (hedge : edge ∈ place.edges document) :
    edge.target.node.hasUniqueKeys = true := by
  obtain ⟨steps, hwalk⟩ := exists_walk_of_edge hkeys hedge
  exact hasUniqueKeys_of_walk hdocument hkeys hwalk

end Place

theorem Addressed.next {document : Json} {place : Place} {edge : Edge}
    (hkeys : document.hasUniqueKeys = true) (h : Addressed document place)
    (hedge : edge ∈ place.edges document) : Addressed document edge.target := by
  obtain ⟨steps, hwalk⟩ := Place.exists_walk_of_edge (h.hasUniqueKeys hkeys) hedge
  exact h.walk hwalk

def ListsObjectsAlone (document : Json) : Prop :=
  ∀ place names, Addressed document place →
    place.node.field? Keyword.type.text = some (.array names) → .string "object" ∈ names →
    ∀ name, .string name ∈ names → name = "object"

theorem ListsObjectsAlone.single {document : Json} {place : Place} {schema : Schema}
    (halone : ListsObjectsAlone document) (hplace : Addressed document place)
    (hschema : Schema.ofJson place.node place.loc = .ok schema) {names : List String}
    (hnames : schema.types? place.loc = .ok (some names)) (hobject : "object" ∈ names) :
    ∀ name ∈ names, name = "object" := by
  rcases Schema.types?_eq_some hnames with ⟨name, -, rfl⟩ | ⟨values, htype, hstrings⟩
  . rw [List.mem_singleton] at hobject
    rw [← hobject]
    exact fun name hname => List.mem_singleton.1 hname
  . rw [Schema.get?_of_ofJson hschema] at htype
    intro name hname
    exact halone place values hplace htype ((Schema.mem_of_strings? hstrings).2 hobject) name
      ((Schema.mem_of_strings? hstrings).2 hname)

def Place.Links (document : Json) (link : Link) (p q : Place) : Prop :=
  ∃ edge ∈ p.edges document, edge.link = link ∧ edge.target = q

section Links

variable {document : Json} {p q q' : Place}

theorem Addressed.linked {link : Link} (hkeys : document.hasUniqueKeys = true)
    (hp : Addressed document p) (hq : Place.Links document link p q) : Addressed document q := by
  obtain ⟨edge, hedge, -, rfl⟩ := hq
  exact hp.next hkeys hedge

namespace Place

theorem Links.hasUniqueKeys {link : Link} (hdocument : document.hasUniqueKeys = true)
    (hkeys : p.node.hasUniqueKeys = true) (hq : Links document link p q) :
    q.node.hasUniqueKeys = true := by
  obtain ⟨edge, hedge, -, rfl⟩ := hq
  exact hasUniqueKeys_of_edge hdocument hkeys hedge

theorem link_of_typeEdge {place : Place} {schema : Schema} {covered : Bool} {names : List String}
    {edge : Edge} (hedge : edge ∈ place.typeEdges schema covered names) :
    edge.link ≠ .reference ∧ edge.link ≠ .alternative := by
  obtain ⟨covered, name, -, hnamed⟩ := mem_typeEdges hedge
  unfold namedEdges itemEdges objectEdges fieldEdges at hnamed
  grind

theorem form_unique {schema schema' : Schema} {form form' : Form}
    (hschema : Schema.ofJson p.node p.loc = .ok schema) (hform : schema.form p.loc = .ok form)
    (hschema' : Schema.ofJson p.node p.loc = .ok schema')
    (hform' : schema'.form p.loc = .ok form') : form = form' := by
  rw [hschema] at hschema'
  cases hschema'
  rw [hform] at hform'
  cases hform'
  rfl

theorem form_of_reference (h : Links document .reference p q) :
    ∃ schema text reference, Schema.ofJson p.node p.loc = .ok schema ∧
      schema.form p.loc = .ok (.reference text) ∧ Reference.ofText text = .ok reference ∧
      p.resolve document reference.target = .ok q := by
  obtain ⟨edge, hedge, hlink, rfl⟩ := h
  unfold edges at hedge
  split at hedge
  . next schema hschema =>
    split at hedge
    . next form hform =>
      cases form with
      | reference text =>
        obtain ⟨reference, target, hreference, htarget, rfl⟩ := mem_referenceEdges hedge
        exact ⟨schema, text, reference, hschema, hform, hreference, htarget⟩
      | enum cases => cases hedge
      | named names => exact absurd hlink (link_of_typeEdge hedge).1
      | choice step nodes =>
        obtain ⟨i, node, -, rfl⟩ := mem_choiceEdges hedge
        cases hlink
      | anything => cases hedge
    . cases hedge
  . cases hedge

theorem form_of_alternative (h : Links document .alternative p q) :
    ∃ schema step nodes index, Schema.ofJson p.node p.loc = .ok schema ∧
      schema.form p.loc = .ok (.choice step nodes) ∧ nodes[index]? = some q.node ∧
      q.loc = p.loc.child (step index) := by
  obtain ⟨edge, hedge, hlink, rfl⟩ := h
  unfold edges at hedge
  split at hedge
  . next schema hschema =>
    split at hedge
    . next form hform =>
      cases form with
      | reference text =>
        rw [(exists_steps_of_referenceEdge hedge).1] at hlink
        cases hlink
      | enum cases => cases hedge
      | named names => exact absurd hlink (link_of_typeEdge hedge).2
      | choice step nodes =>
        obtain ⟨i, node, hnode, rfl⟩ := mem_choiceEdges hedge
        rw [Nat.zero_add]
        exact ⟨schema, step, nodes, i, hschema, hform, hnode, rfl⟩
      | anything => cases hedge
    . cases hedge
  . cases hedge

theorem getLast?_walk {steps : List Step} (hnonempty : steps ≠ [])
    (hwalk : walk document steps p = .ok q) : q.loc.steps.getLast? = steps.getLast? := by
  induction steps generalizing p with
  | nil => exact absurd rfl hnonempty
  | cons step rest ih =>
    obtain ⟨next, hstep, hrest⟩ := walk_cons_eq_ok hwalk
    cases rest with
    | nil =>
      cases hrest
      by_cases hroot : step = .root
      . subst hroot
        cases hstep
        rfl
      . rw [loc_of_step hroot hstep]
        simp
    | cons step' rest =>
      rw [ih (by simp) hrest]
      rfl

theorem loc_of_child {edge : Edge} {loc : Location} {step : Step}
    (hkeys : p.node.hasUniqueKeys = true) (hedge : edge ∈ p.edges document)
    (hstep : ¬step.IsReferring) (htarget : edge.target.loc = loc.child step) : p.loc = loc := by
  rcases edge_cases hkeys hedge with
    ⟨-, steps, hnonempty, hreferring, hwalk⟩ | ⟨step', hlink, hnext⟩
  . have hlast := getLast?_walk hnonempty hwalk
    rw [htarget, Location.child_steps, List.getLast?_concat] at hlast
    exact absurd (hreferring _ (List.mem_of_getLast? hlast.symm)) hstep
  . have hroot : step' ≠ .root := by
      rintro rfl
      cases hlink
    rw [loc_of_step hroot hnext] at htarget
    have hsteps := congrArg Location.steps htarget
    rw [Location.child_steps, Location.child_steps] at hsteps
    have hinit := (List.append_inj' hsteps rfl).1
    cases hp : p.loc
    cases loc
    rw [hp] at hinit
    exact congrArg _ hinit

theorem loc_of_alternative (hp : Links document .alternative p q) {p' : Place}
    (hkeys : p'.node.hasUniqueKeys = true) {edge : Edge} (hedge : edge ∈ p'.edges document)
    (htarget : edge.target.loc = q.loc) : p'.loc = p.loc := by
  obtain ⟨schema, step, nodes, index, hschema, hform, -, hloc⟩ := form_of_alternative hp
  have hstep : ¬(step index).IsReferring := by
    rcases Descent.alternatives?_eq_some (Schema.has_of_form hform).2.2.2 with
      ⟨rfl, -⟩ | ⟨rfl, -⟩
    . simp [Step.IsReferring]
    . simp [Step.IsReferring]
  rw [hloc] at htarget
  exact loc_of_child hkeys hedge hstep htarget

end Place

end Links

end SchemaGraph
