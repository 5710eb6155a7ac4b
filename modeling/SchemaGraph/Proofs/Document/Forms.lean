import SchemaGraph.Proofs.Document.Edges

/-!
This module contains what a result of a schema accessor says about the keywords, and from it what
the form of a schema says. A schema that has a form has well-formed keywords up to the deciding one.
-/

namespace SchemaGraph

namespace Schema

variable {schema : Schema} {loc : Location}

theorem get?_of_ofJson {node : Json} (h : ofJson node loc = .ok schema) (keyword : Keyword) :
    schema.get? keyword = node.field? keyword.text := by
  unfold ofJson at h
  split at h
  . cases h
    rfl
  . cases h

theorem items?_eq_none (h : schema.items? loc = .ok none) : schema.get? .items = none := by
  unfold items? at h
  split at h
  . assumption
  . cases h
  . cases h

theorem items?_eq_some {node : Json} (h : schema.items? loc = .ok (some node)) :
    ∃ fields, node = .object fields ∧ schema.get? .items = some (.object fields) := by
  unfold items? at h
  split at h
  . cases h
  . next fields hfields =>
    cases h
    exact ⟨fields, rfl, hfields⟩
  . cases h

theorem properties?_eq_none (h : schema.properties? loc = .ok none) :
    schema.get? .properties = none := by
  unfold properties? at h
  split at h
  . assumption
  . cases h
  . cases h

theorem properties?_eq_some {fields : Entries String Json}
    (h : schema.properties? loc = .ok (some fields)) :
    schema.get? .properties = some (.object fields) := by
  unfold properties? at h
  split at h
  . cases h
  . next fields hfields =>
    cases h
    exact hfields
  . cases h

theorem additional?_eq_forbidden (h : schema.additional? = some .forbidden) :
    schema.get? .additionalProperties = some (.bool false) := by
  unfold additional? at h
  split at h
  . cases h
  . assumption
  . cases h
  . cases h

theorem additional?_eq_schema {values : Json} (h : schema.additional? = some (.schema values)) :
    ∃ fields, values = .object fields ∧
      schema.get? .additionalProperties = some (.object fields) := by
  unfold additional? at h
  split at h
  . cases h
  . cases h
  . next fields hfields =>
    cases h
    exact ⟨fields, rfl, hfields⟩
  . cases h

theorem arrayAt?_eq_none {keyword : Keyword} (h : schema.arrayAt? keyword loc = .ok none) :
    schema.get? keyword = none := by
  unfold arrayAt? at h
  split at h
  . assumption
  . cases h
  . cases h

theorem arrayAt?_eq_some {keyword : Keyword} {nodes : List Json}
    (h : schema.arrayAt? keyword loc = .ok (some nodes)) :
    schema.get? keyword = some (.array nodes) := by
  unfold arrayAt? at h
  split at h
  . cases h
  . next nodes hnodes =>
    cases h
    exact hnodes
  . cases h

theorem format?_eq_some {format : String} (h : schema.format? = some format) :
    schema.get? .format = some (.string format) := by
  obtain ⟨value, hvalue, hstring⟩ := Option.bind_eq_some_iff.1 h
  cases value with
  | string text =>
    cases hstring
    exact hvalue
  | _ => cases hstring

theorem strings?_eq_some {values : List Json} {texts : List String}
    (h : strings? values = some texts) : values = texts.map Json.string := by
  induction values generalizing texts with
  | nil =>
    cases h
    rfl
  | cons value rest ih =>
    cases value with
    | string text =>
      obtain ⟨texts, htexts, rfl⟩ := Option.map_eq_some_iff.1 h
      rw [ih htexts]
      rfl
    | _ => cases h

theorem mem_of_strings? {values : List Json} {texts : List String} {text : String}
    (h : strings? values = some texts) : .string text ∈ values ↔ text ∈ texts := by
  rw [strings?_eq_some h]
  simp

theorem reference?_eq_none (h : schema.reference? = .ok none) : schema.get? .reference = none := by
  unfold reference? at h
  split at h
  . assumption
  . cases h
  . cases h

theorem reference?_eq_some {text : String} (h : schema.reference? = .ok (some text)) :
    schema.get? .reference = some (.string text) := by
  unfold reference? at h
  split at h
  . cases h
  . next hvalue =>
    cases h
    exact hvalue
  . cases h

theorem cases?_eq_none (h : schema.cases? loc = .ok none) : schema.get? .enum = none := by
  unfold cases? at h
  split at h
  . assumption
  . split at h
    . cases h
    . cases h
  . cases h

theorem cases?_eq_some {cases : List String} (h : schema.cases? loc = .ok (some cases)) :
    ∃ values, schema.get? .enum = some (.array values) ∧ strings? values = some cases := by
  unfold cases? at h
  split at h
  . cases h
  . next values hvalue =>
    split at h
    . next found hfound =>
      cases h
      exact ⟨values, hvalue, hfound⟩
    . cases h
  . cases h

theorem types?_eq_none (h : schema.types? loc = .ok none) : schema.get? .type = none := by
  unfold types? at h
  split at h
  . assumption
  . cases h
  . split at h
    . cases h
    . cases h
    . cases h
  . cases h

theorem types?_eq_some {names : List String} (h : schema.types? loc = .ok (some names)) :
    (∃ name, schema.get? .type = some (.string name) ∧ names = [name]) ∨
      ∃ values, schema.get? .type = some (.array values) ∧ strings? values = some names := by
  unfold types? at h
  split at h
  . cases h
  . next name hvalue =>
    cases h
    exact Or.inl ⟨name, hvalue, rfl⟩
  . next values hvalue =>
    split at h
    . cases h
    . next found _ hfound =>
      cases h
      exact Or.inr ⟨values, hvalue, hfound⟩
    . cases h
  . cases h

end Schema

theorem Descent.alternatives?_eq_some {schema : Schema} {loc : Location} {step : Nat → Step}
    {nodes : List Json} (h : Descent.alternatives? schema loc = .ok (some (step, nodes))) :
    step = .oneOf ∧ schema.get? .oneOf = some (.array nodes) ∨
      step = .anyOf ∧ schema.get? .oneOf = none ∧ schema.get? .anyOf = some (.array nodes) := by
  unfold Descent.alternatives? at h
  rcases hone : schema.oneOf? loc with fault | _ | found
  . rw [hone] at h
    cases h
  . rcases hany : schema.anyOf? loc with fault | _ | found
    . simp [hone, hany, bind, Except.bind] at h
    . simp [hone, hany, bind, Except.bind, pure, Except.pure] at h
    . simp [hone, hany, bind, Except.bind, pure, Except.pure] at h
      obtain ⟨rfl, rfl⟩ := h
      exact Or.inr ⟨rfl, Schema.arrayAt?_eq_none hone, Schema.arrayAt?_eq_some hany⟩
  . simp [hone, bind, Except.bind, pure, Except.pure] at h
    obtain ⟨rfl, rfl⟩ := h
    exact Or.inl ⟨rfl, Schema.arrayAt?_eq_some hone⟩

def Schema.Has (schema : Schema) (loc : Location) : Form → Prop
  | .reference text => schema.get? .reference = some (.string text)
  | .enum cases => schema.get? .reference = none ∧ schema.cases? loc = .ok (some cases)
  | .named names => schema.get? .reference = none ∧ schema.get? .enum = none ∧
    schema.types? loc = .ok (some names)
  | .choice step nodes => schema.get? .reference = none ∧ schema.get? .enum = none ∧
    schema.get? .type = none ∧ Descent.alternatives? schema loc = .ok (some (step, nodes))
  | .anything => True

theorem Schema.has_of_form {schema : Schema} {loc : Location} {form : Form}
    (h : schema.form loc = .ok form) : schema.Has loc form := by
  unfold Schema.form at h
  rcases hreference : schema.reference? with fault | _ | text
  . simp [hreference, bind, Except.bind] at h
  . rcases hcases : schema.cases? loc with fault | _ | cases
    . simp [hreference, hcases, bind, Except.bind] at h
    . rcases htypes : schema.types? loc with fault | _ | names
      . simp [hreference, hcases, htypes, bind, Except.bind] at h
      . rcases hnodes : Descent.alternatives? schema loc with fault | _ | ⟨step, nodes⟩
        . simp [hreference, hcases, htypes, hnodes, bind, Except.bind] at h
        . simp [hreference, hcases, htypes, hnodes, bind, Except.bind, pure, Except.pure] at h
          subst h
          trivial
        . simp [hreference, hcases, htypes, hnodes, bind, Except.bind, pure, Except.pure] at h
          subst h
          exact ⟨reference?_eq_none hreference, cases?_eq_none hcases, types?_eq_none htypes,
            hnodes⟩
      . simp [hreference, hcases, htypes, bind, Except.bind, pure, Except.pure] at h
        subst h
        exact ⟨reference?_eq_none hreference, cases?_eq_none hcases, htypes⟩
    . simp [hreference, hcases, bind, Except.bind, pure, Except.pure] at h
      subst h
      exact ⟨reference?_eq_none hreference, hcases⟩
  . simp [hreference, bind, Except.bind, pure, Except.pure] at h
    subst h
    exact reference?_eq_some hreference

end SchemaGraph
