import SchemaGraph.Reference

/-!
This module contains the spelling of locations and references. A location is written with the parts
of its steps and with slashes between them, and no other location is written in the same way as long
as there are no slashes in names. A reference is read from such parts and from nothing else. What
has been read is written as the text that it was read from, and what has been written is read as
itself, names that look like keywords included.
-/

namespace SchemaGraph

theorem slashParts_eq_splitOn (chars : List Char) : slashParts chars = chars.splitOn '/' := by
  induction chars with
  | nil => rfl
  | cons c rest ih =>
    rw [List.splitOn_cons_eq_if_modifyHead, ← ih]
    simp only [slashParts, beq_iff_eq]
    split
    . rfl
    . cases hparts : slashParts rest with
      | nil => exact absurd hparts (slashParts_ne_nil rest)
      | cons part more => rfl

theorem intercalate_slashParts (chars : List Char) :
    ['/'].intercalate (slashParts chars) = chars := by
  rw [slashParts_eq_splitOn, List.intercalate_splitOn]

theorem cons_intercalate {parts : List (List Char)} (hparts : parts ≠ []) :
    '/' :: ['/'].intercalate parts = parts.flatMap fun part => '/' :: part := by
  induction parts with
  | nil => exact absurd rfl hparts
  | cons part rest ih =>
    cases rest with
    | nil => simp [List.intercalate_singleton]
    | cons next rest =>
      rw [List.intercalate_cons_cons, List.flatMap_cons, ← ih (List.cons_ne_nil _ _)]
      simp

def Step.parts : Step → List (List Char)
  | .root => ["#".toList]
  | .definition name => ["definitions".toList, name.toList]
  | .oneOf index => ["oneOf".toList, (toString index).toList]
  | .anyOf index => ["anyOf".toList, (toString index).toList]
  | .property name => ["properties".toList, name.toList]
  | .additionalProperties => ["additionalProperties".toList]
  | .items => ["items".toList]

namespace Step

theorem parts_ne_nil (step : Step) : step.parts ≠ [] := by
  cases step with
  | _ => exact List.cons_ne_nil _ _

theorem eq_of_parts_append {step other : Step} {rest others : List (List Char)}
    (h : step.parts ++ rest = other.parts ++ others) : step = other ∧ rest = others := by
  -- The first part is a keyword, which says whether a name or an index comes next.
  cases step with
  | root | additionalProperties | items => cases other <;> simp_all [parts]
  | definition name | property name => cases other <;> simp_all [parts, String.toList_inj]
  | oneOf index | anyOf index => cases other <;> simp_all [parts, toDigits_inj]

theorem eq_of_flatMap_parts {steps others : List Step}
    (h : steps.flatMap parts = others.flatMap parts) : steps = others := by
  induction steps generalizing others with
  | nil =>
    have hnone := List.flatMap_eq_nil_iff.1 h.symm
    exact (List.eq_nil_iff_forall_not_mem.2 fun step hstep =>
      step.parts_ne_nil (hnone step hstep)).symm
  | cons step rest ih =>
    cases others with
    | nil => exact absurd (List.append_eq_nil_iff.1 h).1 step.parts_ne_nil
    | cons other others =>
      obtain ⟨rfl, hrest⟩ := eq_of_parts_append h
      rw [ih hrest]

def name? : Step → Option String
  | .definition name => some name
  | .property name => some name
  | _ => none

theorem slash_notMem_parts {step : Step} (hname : ∀ name ∈ step.name?, '/' ∉ name.toList) :
    ∀ part ∈ step.parts, '/' ∉ part := by
  cases step with
  | root | additionalProperties | items => simp [parts]
  | definition name | property name => simpa [parts] using hname name rfl
  | oneOf index | anyOf index => simpa [parts] using not_mem_toDigits index rfl

end Step

namespace Location

def parts (loc : Location) : List (List Char) :=
  loc.steps.flatMap Step.parts

theorem toList_step (step : Step) :
    '/' :: step.text.toList = step.parts.flatMap fun part => '/' :: part := by
  cases step with
  | _ => simp [Step.text, Step.parts]

theorem toList_tailText (steps : List Step) :
    (tailText steps).toList = (steps.flatMap Step.parts).flatMap fun part => '/' :: part := by
  induction steps with
  | nil => rfl
  | cons step rest ih =>
    rw [List.flatMap_cons, List.flatMap_append, ← ih, ← toList_step]
    simp [tailText]

theorem parts_ne_nil {loc : Location} (hsteps : loc.steps ≠ []) : loc.parts ≠ [] := by
  intro hparts
  obtain ⟨step, hstep⟩ := List.exists_mem_of_ne_nil _ hsteps
  exact step.parts_ne_nil (List.flatMap_eq_nil_iff.1 hparts step hstep)

theorem toList_text {loc : Location} (hsteps : loc.steps ≠ []) :
    loc.text.toList = ['/'].intercalate loc.parts := by
  have htail : '/' :: loc.text.toList = (tailText loc.steps).toList := by
    unfold text
    cases hloc : loc.steps with
    | nil => exact absurd hloc hsteps
    | cons step rest => simp [tailText]
  rw [toList_tailText, ← parts, ← cons_intercalate (parts_ne_nil hsteps)] at htail
  exact List.tail_eq_of_cons_eq htail

theorem splitOn_text {loc : Location} (hsteps : loc.steps ≠ [])
    (hslash : ∀ part ∈ loc.parts, '/' ∉ part) : loc.text.toList.splitOn '/' = loc.parts := by
  rw [toList_text hsteps, List.splitOn_intercalate _ hslash (parts_ne_nil hsteps)]

def IsPlain (loc : Location) : Prop :=
  ∀ step ∈ loc.steps, ∀ name ∈ step.name?, '/' ∉ name.toList

theorem IsPlain.splitOn_text {loc : Location} (hplain : loc.IsPlain) (hsteps : loc.steps ≠ []) :
    loc.text.toList.splitOn '/' = loc.parts := by
  refine Location.splitOn_text hsteps fun part hpart => ?_
  obtain ⟨step, hstep, hpart⟩ := List.mem_flatMap.1 hpart
  exact Step.slash_notMem_parts (hplain step hstep) part hpart

theorem text_eq_iff {a b : Location} (ha : a.steps ≠ []) (hb : b.steps ≠ [])
    (hplain : a.IsPlain) (hplain' : b.IsPlain) : a.text = b.text ↔ a = b := by
  constructor
  . intro htext
    have hparts : a.parts = b.parts := by
      rw [← hplain.splitOn_text ha, htext, hplain'.splitOn_text hb]
    obtain ⟨steps⟩ := a
    rw [show steps = b.steps from Step.eq_of_flatMap_parts hparts]
  . rintro rfl
    rfl

theorem text_eq_iff_keywords :
    let empty : Location := ⟨[.definition "", .root, .property "items", .items]⟩
    let hash : Location := ⟨[.definition "#", .property "items", .items]⟩
    empty.text = "definitions//#/properties/items/items" ∧
      hash.text = "definitions/#/properties/items/items" ∧
      empty.IsPlain ∧ hash.IsPlain ∧ (empty.text = hash.text ↔ empty = hash) := by
  intro empty hash
  have hempty : empty.IsPlain := by simp [empty, IsPlain, Step.name?]
  have hhash : hash.IsPlain := by simp [hash, IsPlain, Step.name?]
  exact ⟨by decide, by decide, hempty, hhash, text_eq_iff (by decide) (by decide) hempty hhash⟩

example : (⟨[]⟩ : Location).text = root.text := rfl

example : text ⟨[.property "a/items"]⟩ = text ⟨[.property "a", .items]⟩ := by decide

end Location

namespace Reference

/--
The parts that one step of a reference is read from: a hash sign, or the keyword of the definitions
and a name.
-/
inductive IsItem : List (List Char) → Prop where
  | root : IsItem ["#".toList]
  | definition {name : List Char} (hname : name ≠ []) : IsItem ["definitions".toList, name]

def IsReadable (step : Step) : Prop :=
  step = .root ∨ ∃ name, step = .definition name ∧ name ≠ ""

variable {parts : List (List Char)} {steps : List Step}

theorem eq_parts_of_steps? (h : steps? parts = some steps) :
    parts = steps.flatMap Step.parts ∧ ∀ step ∈ steps, IsReadable step := by
  fun_induction steps? parts generalizing steps with
  | case1 =>
    cases h
    exact ⟨rfl, fun _ hmem => nomatch hmem⟩
  | case2 rest ih =>
    obtain ⟨steps, hsteps, rfl⟩ := Option.map_eq_some_iff.1 h
    obtain ⟨rfl, hreadable⟩ := ih hsteps
    exact ⟨rfl, List.forall_mem_cons.2 ⟨Or.inl rfl, hreadable⟩⟩
  | case3 => cases h
  | case4 => cases h
  | case5 name rest hname _ ih =>
    obtain ⟨steps, hsteps, rfl⟩ := Option.map_eq_some_iff.1 h
    obtain ⟨rfl, hreadable⟩ := ih hsteps
    refine ⟨by simp [Step.parts], List.forall_mem_cons.2 ⟨Or.inr ⟨_, rfl, ?_⟩, hreadable⟩⟩
    rintro hempty
    exact hname (String.ofList_injective hempty)
  | case6 => cases h

theorem steps?_parts (hreadable : ∀ step ∈ steps, IsReadable step) :
    steps? (steps.flatMap Step.parts) = some steps := by
  induction steps with
  | nil => rfl
  | cons step rest ih =>
    obtain ⟨hstep, hrest⟩ := List.forall_mem_cons.1 hreadable
    rcases hstep with rfl | ⟨name, rfl, hname⟩
    . change steps? (['#'] :: rest.flatMap Step.parts) = _
      unfold steps?
      rw [if_pos rfl, ih hrest]
      rfl
    . simp [Step.parts, steps?, ih hrest, hname]

theorem ofText_eq_ok {text : String} {reference : Reference} :
    ofText text = .ok reference ↔ ∃ last, steps? (slashParts text.toList) =
      some reference.target.steps ∧ reference.target.steps.getLast? = some last ∧
        reference.name = nameOf last := by
  obtain ⟨⟨steps⟩, name⟩ := reference
  unfold ofText
  constructor
  . intro h
    split at h
    . cases h
    . next hsteps =>
      split at h
      . cases h
      . next last hlast =>
        cases h
        exact ⟨last, hsteps, hlast, rfl⟩
  . rintro ⟨last, hsteps, hlast, rfl⟩
    rw [hsteps]
    dsimp only
    rw [hlast]

theorem exists_steps_of_items {items : List (List (List Char))}
    (hitems : ∀ item ∈ items, IsItem item) :
    ∃ steps : List Step, steps.map Step.parts = items ∧ ∀ step ∈ steps, IsReadable step := by
  induction items with
  | nil => exact ⟨[], rfl, fun _ hmem => nomatch hmem⟩
  | cons item rest ih =>
    obtain ⟨hitem, hrest⟩ := List.forall_mem_cons.1 hitems
    obtain ⟨steps, rfl, hsteps⟩ := ih hrest
    cases hitem with
    | root =>
      exact ⟨.root :: steps, rfl, List.forall_mem_cons.2 ⟨Or.inl rfl, hsteps⟩⟩
    | @definition name hname =>
      refine ⟨.definition (String.ofList name) :: steps, by simp [Step.parts],
        List.forall_mem_cons.2 ⟨Or.inr ⟨_, rfl, ?_⟩, hsteps⟩⟩
      rintro hempty
      exact hname (String.ofList_injective hempty)

theorem IsReadable.isItem {step : Step} (h : IsReadable step) : IsItem step.parts := by
  rcases h with rfl | ⟨name, rfl, hname⟩
  . exact .root
  . exact .definition (by simpa using hname)

theorem exists_ofText_iff (text : String) : (∃ reference, ofText text = .ok reference) ↔
    ∃ items ≠ [], (∀ item ∈ items, IsItem item) ∧ text.toList.splitOn '/' = items.flatten := by
  rw [← slashParts_eq_splitOn]
  constructor
  . rintro ⟨reference, hread⟩
    obtain ⟨last, hsteps, hlast, -⟩ := ofText_eq_ok.1 hread
    obtain ⟨hparts, hreadable⟩ := eq_parts_of_steps? hsteps
    refine ⟨reference.target.steps.map Step.parts, ?_, ?_, hparts⟩
    . rw [ne_eq, List.map_eq_nil_iff]
      exact List.ne_nil_of_mem (List.mem_of_getLast? hlast)
    . intro item hitem
      obtain ⟨step, hstep, rfl⟩ := List.mem_map.1 hitem
      exact (hreadable step hstep).isItem
  . rintro ⟨items, hitems, hall, hparts⟩
    obtain ⟨steps, rfl, hreadable⟩ := exists_steps_of_items hall
    have hsteps : steps ≠ [] := mt List.map_eq_nil_iff.2 hitems
    refine ⟨⟨⟨steps⟩, _⟩, ofText_eq_ok.2
      ⟨_, ?_, List.getLast?_eq_some_getLast hsteps, rfl⟩⟩
    rw [hparts]
    exact steps?_parts hreadable

theorem text_of_ofText {text : String} {reference : Reference}
    (hread : ofText text = .ok reference) : reference.target.text = text := by
  obtain ⟨last, hsteps, hlast, -⟩ := ofText_eq_ok.1 hread
  obtain ⟨hparts, -⟩ := eq_parts_of_steps? hsteps
  apply String.toList_injective
  rw [Location.toList_text (List.ne_nil_of_mem (List.mem_of_getLast? hlast)), Location.parts,
    ← hparts, intercalate_slashParts]

theorem ofText_text {loc : Location} (hsteps : loc.steps ≠ [])
    (hreadable : ∀ step ∈ loc.steps, IsReadable step) (hslash : ∀ part ∈ loc.parts, '/' ∉ part) :
    ofText loc.text = .ok ⟨loc, nameOf (loc.steps.getLast hsteps)⟩ := by
  refine ofText_eq_ok.2 ⟨_, ?_, List.getLast?_eq_some_getLast hsteps, rfl⟩
  rw [slashParts_eq_splitOn, Location.splitOn_text hsteps hslash]
  exact steps?_parts hreadable

/--
A text is read as a reference if and only if its parts between slashes are one item or several. Then
what has been read is written as the text, and it has the name of its last step. What is written of
steps to the root and to definitions, with names that are not empty and without slashes, is read as
these steps.
-/
theorem read_as_written :
    (∀ text, (∃ reference, ofText text = .ok reference) ↔
      ∃ items ≠ [], (∀ item ∈ items, IsItem item) ∧ text.toList.splitOn '/' = items.flatten) ∧
    (∀ text reference, ofText text = .ok reference → reference.target.text = text ∧
      (reference.target.steps.getLast? = some .root ∧ reference.name = "Root" ∨
        reference.target.steps.getLast? = some (.definition reference.name))) ∧
    ∀ loc : Location, loc.steps ≠ [] →
      (∀ step ∈ loc.steps,
        step = .root ∨ ∃ name, step = .definition name ∧ name ≠ "" ∧ '/' ∉ name.toList) →
      ∃ name, ofText loc.text = .ok ⟨loc, name⟩ := by
  refine ⟨exists_ofText_iff, ?_, ?_⟩
  . intro text reference hread
    obtain ⟨last, hsteps, hlast, hname⟩ := ofText_eq_ok.1 hread
    obtain ⟨-, hreadable⟩ := eq_parts_of_steps? hsteps
    refine ⟨text_of_ofText hread, ?_⟩
    rw [hlast, hname]
    rcases hreadable last (List.mem_of_getLast? hlast) with rfl | ⟨name, rfl, -⟩
    . exact Or.inl ⟨rfl, rfl⟩
    . exact Or.inr rfl
  . intro loc hsteps hnames
    refine ⟨_, ofText_text hsteps ?_ ?_⟩
    . intro step hstep
      rcases hnames step hstep with rfl | ⟨name, rfl, hname, -⟩
      . exact Or.inl rfl
      . exact Or.inr ⟨name, rfl, hname⟩
    . intro part hpart
      obtain ⟨step, hstep, hpart⟩ := List.mem_flatMap.1 hpart
      rcases hnames step hstep with rfl | ⟨name, rfl, -, hname⟩
      . rw [List.mem_singleton.1 hpart]
        decide
      . rcases List.mem_cons.1 hpart with rfl | hpart
        . decide
        . rwa [List.mem_singleton.1 hpart]

theorem read_as_written_keywords :
    let loc : Location := ⟨[.root, .definition "#", .definition "definitions"]⟩
    loc.text = "#/definitions/#/definitions/definitions" ∧
      (∃ name, ofText loc.text = .ok ⟨loc, name⟩) ∧
      ¬∃ items ≠ [], (∀ item ∈ items, IsItem item) ∧
        "#/definitions".toList.splitOn '/' = items.flatten := by
  intro loc
  obtain ⟨hreads, -, hwritten⟩ := read_as_written
  refine ⟨by decide, hwritten loc (List.cons_ne_nil _ _) ?_, ?_⟩
  . refine List.forall_mem_cons.2 ⟨Or.inl rfl, List.forall_mem_cons.2 ⟨Or.inr ⟨"#", rfl, ?_⟩,
      List.forall_mem_singleton.2 (Or.inr ⟨"definitions", rfl, ?_⟩)⟩⟩
    . decide +kernel
    . decide +kernel
  . rw [← hreads]
    rintro ⟨reference, hread⟩
    have hnone : steps? (slashParts "#/definitions".toList) = none := by decide +kernel
    obtain ⟨last, hsteps, -⟩ := ofText_eq_ok.1 hread
    rw [hnone] at hsteps
    cases hsteps

end Reference

end SchemaGraph
