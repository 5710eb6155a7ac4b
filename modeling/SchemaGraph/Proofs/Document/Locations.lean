import SchemaGraph.Proofs.Document.Addresses

/-!
This module contains the list of the locations of a document. Every schema of the document has one
location, so there are no more of them than values in the document.
-/

namespace SchemaGraph

theorem length_distinct_le {α : Type} [DecidableEq α] (as : List α) :
    (distinct as).length ≤ as.length := by
  induction as with
  | nil => exact Nat.le_refl _
  | cons a rest ih =>
    have hfilter := List.length_filter_le (fun b => decide (b ≠ a)) (distinct rest)
    simp only [distinct, List.length_cons]
    omega

namespace Place

def namedParts (place : Place) (step : String → Step) : Json → List Place
  | .object fields => fields.map fun field => ⟨field.2, place.loc.child (step field.1)⟩
  | _ => []

def numberedParts (place : Place) (step : Nat → Step) : Nat → List Json → List Place
  | _, [] => []
  | index, node :: rest =>
    ⟨node, place.loc.child (step index)⟩ :: place.numberedParts step (index + 1) rest

def innerParts (place : Place) (step : Step) (value : Json) : List Place :=
  if value.isObject then [⟨value, place.loc.child step⟩] else []

def partsUnder (place : Place) (key : String) (value : Json) : List Place :=
  if key = Keyword.definitions.text then
    (place.namedParts .definition value).filter fun part => part.node.isObject
  else if key = Keyword.oneOf.text then place.numberedParts .oneOf 0 (value.array?.getD [])
  else if key = Keyword.anyOf.text then place.numberedParts .anyOf 0 (value.array?.getD [])
  else if key = Keyword.properties.text then place.namedParts .property value
  else if key = Keyword.additionalProperties.text then
    place.innerParts .additionalProperties value
  else if key = Keyword.items.text then place.innerParts .items value
  else []

def parts (place : Place) : List Place :=
  (place.node.object?.getD []).flatMap fun field => place.partsUnder field.1 field.2

def within : Nat → Place → List Place
  | 0, place => [place]
  | depth + 1, place => place :: place.parts.flatMap (within depth)

def sizes : List Place → Nat
  | [] => 0
  | place :: rest => place.node.size + sizes rest

variable {place : Place}

theorem sizes_append (places places' : List Place) :
    sizes (places ++ places') = sizes places + sizes places' := by
  induction places with
  | nil => exact (Nat.zero_add _).symm
  | cons place rest ih =>
    rw [List.cons_append, sizes, sizes, ih, Nat.add_assoc]

theorem sizes_filter_le (p : Place → Bool) (places : List Place) :
    sizes (places.filter p) ≤ sizes places := by
  induction places with
  | nil => exact Nat.le_refl _
  | cons place rest ih =>
    rw [List.filter_cons, sizes]
    split
    . rw [sizes]
      omega
    . omega

theorem sizes_namedParts (step : String → Step) (value : Json) :
    sizes (place.namedParts step value) ≤ value.size := by
  unfold namedParts
  split
  . next fields =>
    have hsum : sizes (fields.map fun field => ⟨field.2, place.loc.child (step field.1)⟩) =
        Json.sizeFields fields := by
      induction fields with
      | nil => rfl
      | cons field rest ih => rw [List.map_cons, sizes, ih, Json.sizeFields]
    rw [hsum, Json.size]
    omega
  . exact Nat.zero_le _

theorem sizes_numberedParts (step : Nat → Step) (index : Nat) (nodes : List Json) :
    sizes (place.numberedParts step index nodes) = Json.sizeElements nodes := by
  induction nodes generalizing index with
  | nil => rfl
  | cons node rest ih =>
    have hrest := ih (index + 1)
    rw [numberedParts, sizes, hrest, Json.sizeElements]

theorem sizeElements_array?_le (value : Json) :
    Json.sizeElements (value.array?.getD []) ≤ value.size := by
  cases value with
  | array nodes =>
    simp only [Json.array?, Option.getD_some, Json.size]
    omega
  | _ => exact Nat.zero_le _

theorem sizes_innerParts (step : Step) (value : Json) :
    sizes (place.innerParts step value) ≤ value.size := by
  unfold innerParts
  split
  . simp [sizes]
  . exact Nat.zero_le _

theorem sizes_partsUnder (key : String) (value : Json) :
    sizes (place.partsUnder key value) ≤ value.size := by
  unfold partsUnder
  split
  . exact Nat.le_trans (sizes_filter_le _ _) (sizes_namedParts _ _)
  split
  . rw [sizes_numberedParts]
    exact sizeElements_array?_le _
  split
  . rw [sizes_numberedParts]
    exact sizeElements_array?_le _
  split
  . exact sizes_namedParts _ _
  split
  . exact sizes_innerParts _ _
  split
  . exact sizes_innerParts _ _
  . exact Nat.zero_le _

theorem sizes_parts_lt (place : Place) : sizes place.parts < place.node.size := by
  -- Parts are counted field by field, and the object itself is one value more.
  have hfields : ∀ fields : List (String × Json),
      sizes (fields.flatMap fun field => place.partsUnder field.1 field.2) ≤
        Json.sizeFields fields := by
    intro fields
    induction fields with
    | nil => exact Nat.le_refl _
    | cons field rest ih =>
      obtain ⟨key, value⟩ := field
      have hfirst : sizes (place.partsUnder key value) ≤ value.size := sizes_partsUnder _ _
      rw [List.flatMap_cons, sizes_append, Json.sizeFields]
      dsimp only
      omega
  unfold parts
  cases hnode : place.node with
  | object fields =>
    have h := hfields fields
    simp only [Json.object?, Option.getD_some, Json.size]
    omega
  | _ => exact Json.size_pos _

theorem size_le_sizes {places : List Place} (h : place ∈ places) :
    place.node.size ≤ sizes places := by
  induction places with
  | nil => cases h
  | cons first rest ih =>
    rw [sizes]
    rcases List.mem_cons.1 h with rfl | h
    . omega
    . have := ih h
      omega

theorem size_lt_of_mem_parts {part : Place} (h : part ∈ place.parts) :
    part.node.size < place.node.size :=
  Nat.lt_of_le_of_lt (size_le_sizes h) (sizes_parts_lt place)

theorem length_within_le (depth : Nat) (place : Place) :
    (within depth place).length ≤ place.node.size := by
  induction depth generalizing place with
  | zero => exact Json.size_pos _
  | succ depth ih =>
    have hparts : ∀ places : List Place,
        (places.flatMap (within depth)).length ≤ sizes places := by
      intro places
      induction places with
      | nil => exact Nat.le_refl _
      | cons part rest ihrest =>
        have hpart := ih part
        rw [List.flatMap_cons, List.length_append]
        rw [sizes]
        omega
    have h := hparts place.parts
    have hlt := sizes_parts_lt place
    rw [within, List.length_cons]
    omega

theorem mem_within_self (depth : Nat) (place : Place) : place ∈ within depth place := by
  cases depth with
  | zero => exact List.mem_singleton_self _
  | succ depth => exact List.mem_cons_self ..

theorem mem_within_of_mem_parts {depth : Nat} {part last : Place} (h : part ∈ place.parts)
    (hlast : last ∈ within depth part) : last ∈ within (depth + 1) place := by
  rw [within]
  exact List.mem_cons_of_mem _ (List.mem_flatMap.2 ⟨part, h, hlast⟩)

theorem mem_numberedParts {step : Nat → Step} {nodes : List Json} {index i : Nat} {node : Json}
    (h : nodes[i]? = some node) :
    ⟨node, place.loc.child (step (index + i))⟩ ∈ place.numberedParts step index nodes := by
  induction nodes generalizing index i with
  | nil => cases h
  | cons first rest ih =>
    rw [numberedParts]
    cases i with
    | zero =>
      cases h
      exact List.mem_cons_self ..
    | succ i =>
      rw [Nat.add_comm i, ← Nat.add_assoc]
      exact List.mem_cons_of_mem _ (ih h)

theorem mem_parts_of_field? {keyword : Keyword} {value : Json} {part : Place}
    (hvalue : place.node.field? keyword.text = some value)
    (h : part ∈ place.partsUnder keyword.text value) : part ∈ place.parts := by
  unfold parts
  cases hnode : place.node with
  | object fields =>
    rw [hnode] at hvalue
    exact List.mem_flatMap.2 ⟨(keyword.text, value), Entries.mem_of_get? hvalue, h⟩
  | _ =>
    rw [hnode] at hvalue
    cases hvalue

theorem mem_parts_of_inside {document node : Json} {step : Step} (hroot : step ≠ .root)
    (h : place.inside document step = .ok node) :
    ⟨node, place.loc.child step⟩ ∈ place.parts := by
  cases step with
  | root => contradiction
  | definition name =>
    obtain ⟨fields, hfields, hname, hobject⟩ := definition_eq_ok.1 h
    apply mem_parts_of_field? hfields
    unfold partsUnder
    rw [if_pos rfl]
    refine List.mem_filter.2 ⟨?_, hobject⟩
    exact List.mem_map.2 ⟨(name, node), Entries.mem_of_get? hname, rfl⟩
  | oneOf index =>
    obtain ⟨nodes, hnodes, hindex⟩ := alternative_eq_ok.1 h
    apply mem_parts_of_field? hnodes
    rw [← Nat.zero_add index]
    exact mem_numberedParts hindex
  | anyOf index =>
    obtain ⟨nodes, hnodes, hindex⟩ := alternative_eq_ok.1 h
    apply mem_parts_of_field? hnodes
    rw [← Nat.zero_add index]
    exact mem_numberedParts hindex
  | property name =>
    obtain ⟨fields, hfields, hname⟩ := property_eq_ok.1 h
    apply mem_parts_of_field? hfields
    exact List.mem_map.2 ⟨(name, node), Entries.mem_of_get? hname, rfl⟩
  | additionalProperties =>
    obtain ⟨fields, rfl, hfields⟩ := inner_eq_ok.1 h
    apply mem_parts_of_field? hfields
    exact List.mem_singleton_self _
  | items =>
    obtain ⟨fields, rfl, hfields⟩ := inner_eq_ok.1 h
    apply mem_parts_of_field? hfields
    exact List.mem_singleton_self _

theorem mem_within_of_walk {document : Json} {last : Place} {steps : List Step} {depth : Nat}
    (hroot : Step.root ∉ steps) (h : walk document steps place = .ok last)
    (hdepth : place.node.size ≤ depth) : last ∈ within depth place := by
  induction steps generalizing place depth with
  | nil =>
    cases h
    exact mem_within_self _ _
  | cons step rest ih =>
    obtain ⟨next, hstep, hrest⟩ := walk_cons_eq_ok h
    have hne : step ≠ .root := by
      rintro rfl
      exact hroot (List.mem_cons_self ..)
    have hpart : next ∈ place.parts := by
      have hmem := mem_parts_of_inside hne (inside_of_step hne hstep)
      rwa [← loc_of_step hne hstep] at hmem
    have hlt := size_lt_of_mem_parts hpart
    cases depth with
    | zero => omega
    | succ depth =>
      apply mem_within_of_mem_parts hpart
      exact ih (fun hmem => hroot (List.mem_cons_of_mem _ hmem)) hrest (by omega)

theorem exists_of_mem_numberedParts {step : Nat → Step} {nodes : List Json} {index : Nat}
    {part : Place} (h : part ∈ place.numberedParts step index nodes) :
    ∃ i node, nodes[i]? = some node ∧ part = ⟨node, place.loc.child (step (index + i))⟩ := by
  induction nodes generalizing index with
  | nil => cases h
  | cons first rest ih =>
    rcases List.mem_cons.1 h with rfl | h
    . exact ⟨0, first, rfl, rfl⟩
    . obtain ⟨i, node, hnode, hpart⟩ := ih h
      refine ⟨i + 1, node, hnode, ?_⟩
      rw [hpart, Nat.add_right_comm, Nat.add_assoc]

theorem mem_namedParts {step : String → Step} {value : Json} {part : Place}
    (h : part ∈ place.namedParts step value) :
    ∃ fields name node, value = .object fields ∧ (name, node) ∈ fields ∧
      part = ⟨node, place.loc.child (step name)⟩ := by
  unfold namedParts at h
  split at h
  . next fields =>
    obtain ⟨⟨name, node⟩, hmem, rfl⟩ := List.mem_map.1 h
    exact ⟨fields, name, node, rfl, hmem, rfl⟩
  . cases h

theorem mem_innerParts {step : Step} {value : Json} {part : Place}
    (h : part ∈ place.innerParts step value) :
    ∃ fields, value = .object fields ∧ part = ⟨value, place.loc.child step⟩ := by
  unfold innerParts at h
  split at h
  . next hobject =>
    cases value with
    | object fields => exact ⟨fields, rfl, List.mem_singleton.1 h⟩
    | _ => cases hobject
  . cases h

theorem mem_numberedParts_array? {step : Nat → Step} {value : Json} {part : Place}
    (h : part ∈ place.numberedParts step 0 (value.array?.getD [])) :
    ∃ nodes i node, value = .array nodes ∧ nodes[i]? = some node ∧
      part = ⟨node, place.loc.child (step i)⟩ := by
  cases value with
  | array nodes =>
    obtain ⟨i, node, hnode, hpart⟩ := exists_of_mem_numberedParts h
    rw [Nat.zero_add] at hpart
    exact ⟨nodes, i, node, rfl, hnode, hpart⟩
  | _ => cases h

theorem inside_of_mem_partsUnder {key : String} {value : Json} {part : Place}
    (hkeys : value.hasUniqueKeys = true) (hvalue : place.node.field? key = some value)
    (h : part ∈ place.partsUnder key value) (document : Json) :
    ∃ step, step ≠ .root ∧ place.inside document step = .ok part.node ∧
      part.loc = place.loc.child step := by
  unfold partsUnder at h
  split at h
  . next hkey =>
    subst hkey
    obtain ⟨hnamed, hobject⟩ := List.mem_filter.1 h
    obtain ⟨fields, name, node, rfl, hmem, rfl⟩ := mem_namedParts hnamed
    have hname := Entries.get?_of_mem (Json.hasUniqueKeys_object_iff.1 hkeys).1 hmem
    exact ⟨.definition name, by simp, definition_eq_ok.2 ⟨fields, hvalue, hname, hobject⟩, rfl⟩
  split at h
  . next hkey =>
    subst hkey
    obtain ⟨nodes, i, node, rfl, hnode, rfl⟩ := mem_numberedParts_array? h
    exact ⟨.oneOf i, by simp, alternative_eq_ok.2 ⟨nodes, hvalue, hnode⟩, rfl⟩
  split at h
  . next hkey =>
    subst hkey
    obtain ⟨nodes, i, node, rfl, hnode, rfl⟩ := mem_numberedParts_array? h
    exact ⟨.anyOf i, by simp, alternative_eq_ok.2 ⟨nodes, hvalue, hnode⟩, rfl⟩
  split at h
  . next hkey =>
    subst hkey
    obtain ⟨fields, name, node, rfl, hmem, rfl⟩ := mem_namedParts h
    have hname := Entries.get?_of_mem (Json.hasUniqueKeys_object_iff.1 hkeys).1 hmem
    exact ⟨.property name, by simp, property_eq_ok.2 ⟨fields, hvalue, hname⟩, rfl⟩
  split at h
  . next hkey =>
    subst hkey
    obtain ⟨fields, rfl, rfl⟩ := mem_innerParts h
    exact ⟨.additionalProperties, by simp, inner_eq_ok.2 ⟨fields, rfl, hvalue⟩, rfl⟩
  split at h
  . next hkey =>
    subst hkey
    obtain ⟨fields, rfl, rfl⟩ := mem_innerParts h
    exact ⟨.items, by simp, inner_eq_ok.2 ⟨fields, rfl, hvalue⟩, rfl⟩
  . cases h

theorem step_of_mem_parts {part : Place} (hkeys : place.node.hasUniqueKeys = true)
    (h : part ∈ place.parts) (document : Json) : ∃ step, place.step document step = .ok part := by
  unfold parts at h
  obtain ⟨⟨key, value⟩, hfield, hpart⟩ := List.mem_flatMap.1 h
  have hvalue : place.node.field? key = some value := by
    cases hnode : place.node with
    | object fields =>
      rw [hnode] at hfield hkeys
      exact Entries.get?_of_mem (Json.hasUniqueKeys_object_iff.1 hkeys).1 hfield
    | _ =>
      rw [hnode] at hfield
      cases hfield
  obtain ⟨step, hroot, hinside, hloc⟩ := inside_of_mem_partsUnder
    (Json.hasUniqueKeys_of_field? hkeys hvalue) hvalue hpart document
  refine ⟨step, ?_⟩
  rw [step_of_inside hroot hinside, ← hloc]

end Place

def Json.locations (document : Json) : List Location :=
  distinct ((Place.within document.size ⟨document, .root⟩).map fun place => place.loc)

theorem Json.nodup_locations (document : Json) : document.locations.Nodup :=
  nodup_distinct _

theorem Json.length_locations_le (document : Json) :
    document.locations.length ≤ document.size := by
  apply Nat.le_trans (length_distinct_le _)
  rw [List.length_map]
  exact Place.length_within_le _ _

namespace Addressed

theorem of_mem_within {document : Json} {place part : Place} {depth : Nat}
    (hkeys : document.hasUniqueKeys = true) (hplace : Addressed document place)
    (h : part ∈ Place.within depth place) : Addressed document part := by
  induction depth generalizing place with
  | zero =>
    rw [Place.within, List.mem_singleton] at h
    rwa [h]
  | succ depth ih =>
    rw [Place.within] at h
    rcases List.mem_cons.1 h with rfl | h
    . exact hplace
    . obtain ⟨next, hnext, hpart⟩ := List.mem_flatMap.1 h
      obtain ⟨step, hstep⟩ := Place.step_of_mem_parts (hplace.hasUniqueKeys hkeys) hnext document
      exact ih (hplace.step hstep) hpart

theorem mem_within {document : Json} {place : Place} (h : Addressed document place) :
    place ∈ Place.within document.size ⟨document, .root⟩ := by
  obtain ⟨tail, htail, hroot⟩ := h.fromRoot
  have hwalk := h.resolves
  unfold Place.resolve at hwalk
  rw [htail] at hwalk
  obtain ⟨next, hstep, hrest⟩ := Place.walk_cons_eq_ok hwalk
  cases hstep
  exact Place.mem_within_of_walk hroot hrest (Nat.le_refl _)

theorem mem_locations {document : Json} {place : Place} (h : Addressed document place) :
    place.loc ∈ document.locations := by
  rw [Json.locations, mem_distinct]
  exact List.mem_map_of_mem h.mem_within

end Addressed

theorem Json.mem_locations_iff {document : Json} {loc : Location}
    (hkeys : document.hasUniqueKeys = true) :
    loc ∈ document.locations ↔ ∃ node, Addressed document ⟨node, loc⟩ := by
  constructor
  . intro h
    rw [Json.locations, mem_distinct] at h
    obtain ⟨part, hpart, rfl⟩ := List.mem_map.1 h
    exact ⟨part.node, Addressed.root.of_mem_within hkeys hpart⟩
  . rintro ⟨node, h⟩
    exact h.mem_locations

end SchemaGraph
