import SchemaGraph.Json

/-!
This module contains the values in which no object writes a key twice. In such a value the field
that is found under a key is the only one.
-/

namespace SchemaGraph

namespace Entries

variable {κ α : Type} [DecidableEq κ]

theorem mem_of_get? {entries : Entries κ α} {key : κ} {a : α} (h : entries.get? key = some a) :
    (key, a) ∈ entries := by
  induction entries with
  | nil => simp at h
  | cons entry rest ih =>
    obtain ⟨k, b⟩ := entry
    simp only [get?] at h
    split at h
    . next hk =>
      cases h
      simp [hk]
    . exact List.mem_cons_of_mem _ (ih h)

theorem get?_of_mem {entries : Entries κ α} {key : κ} {a : α} (hkeys : entries.keys.Nodup)
    (h : (key, a) ∈ entries) : entries.get? key = some a := by
  induction entries with
  | nil => simp at h
  | cons entry rest ih =>
    obtain ⟨k, b⟩ := entry
    simp only [keys, List.map_cons, List.nodup_cons] at hkeys
    simp only [get?]
    rcases List.mem_cons.1 h with heq | hmem
    . cases heq
      simp
    . have hne : k ≠ key := by
        rintro rfl
        exact hkeys.1 (List.mem_map_of_mem hmem)
      rw [if_neg hne]
      exact ih hkeys.2 hmem

theorem mem_keys_iff {entries : Entries κ α} {key : κ} :
    key ∈ entries.keys ↔ ∃ a, entries.get? key = some a := by
  induction entries with
  | nil => simp [keys]
  | cons entry rest ih =>
    obtain ⟨k, b⟩ := entry
    simp only [keys, List.map_cons, List.mem_cons, get?]
    by_cases hk : k = key
    . simp [hk]
    . simp only [hk, if_false, ← ih, keys]
      simp [Ne.symm hk]

theorem get?_eq_none_iff {entries : Entries κ α} {key : κ} :
    entries.get? key = none ↔ key ∉ entries.keys := by
  rw [mem_keys_iff]
  cases entries.get? key <;> simp

theorem nodup_keys_put {entries : Entries κ α} (h : entries.keys.Nodup) (key : κ) (a : α) :
    (entries.put key a).keys.Nodup := by
  rw [keys_put]
  split
  . exact h
  . next hkey => simpa [List.nodup_append] using ⟨h, fun b hb => by rintro rfl; exact hkey hb⟩

theorem mem_keys_put {entries : Entries κ α} {key key' : κ} {a : α} :
    key' ∈ (entries.put key a).keys ↔ key' = key ∨ key' ∈ entries.keys := by
  rw [keys_put]
  split
  . next hkey =>
    constructor
    . exact Or.inr
    . rintro (rfl | h)
      . exact hkey
      . exact h
  . simp [or_comm]

theorem mem_put {entries : Entries κ α} {key key' : κ} {a b : α}
    (h : (key', b) ∈ entries.put key a) : b = a ∨ (key', b) ∈ entries := by
  induction entries with
  | nil => simp_all [put]
  | cons entry rest ih =>
    obtain ⟨k, c⟩ := entry
    simp only [put] at h
    split at h
    . rcases List.mem_cons.1 h with heq | hmem
      . exact Or.inl (Prod.mk.inj heq).2
      . exact Or.inr (List.mem_cons_of_mem _ hmem)
    . rcases List.mem_cons.1 h with heq | hmem
      . rw [heq]
        simp
      . rcases ih hmem with heq | hrest
        . exact Or.inl heq
        . exact Or.inr (List.mem_cons_of_mem _ hrest)

theorem nodup_keys_ofList (pairs : List (κ × α)) : (ofList pairs).keys.Nodup := by
  unfold ofList
  apply List.foldlRecOn (motive := fun entries : Entries κ α => entries.keys.Nodup)
  . exact List.nodup_nil
  . intro entries hentries pair _
    exact nodup_keys_put hentries pair.1 pair.2

theorem forall_ofList {P : α → Prop} {pairs : List (κ × α)}
    (h : ∀ key a, (key, a) ∈ pairs → P a) : ∀ key a, (key, a) ∈ ofList pairs → P a := by
  unfold ofList
  apply List.foldlRecOn (motive := fun entries : Entries κ α => ∀ key a, (key, a) ∈ entries → P a)
  . exact fun _ _ hmem => nomatch hmem
  . intro entries hentries pair hpair key a hmem
    rcases mem_put hmem with rfl | hmem
    . exact h _ _ hpair
    . exact hentries key a hmem

end Entries

namespace Json

mutual

def hasUniqueKeys : Json → Bool
  | .array elements => elementsHaveUniqueKeys elements
  | .object fields => decide (Entries.keys fields).Nodup && fieldsHaveUniqueKeys fields
  | _ => true

def elementsHaveUniqueKeys : List Json → Bool
  | [] => true
  | element :: rest => hasUniqueKeys element && elementsHaveUniqueKeys rest

def fieldsHaveUniqueKeys : List (String × Json) → Bool
  | [] => true
  | (_, value) :: rest => hasUniqueKeys value && fieldsHaveUniqueKeys rest

end

theorem elementsHaveUniqueKeys_iff {elements : List Json} :
    elementsHaveUniqueKeys elements = true ↔ ∀ value ∈ elements, value.hasUniqueKeys = true := by
  induction elements with
  | nil => simp [elementsHaveUniqueKeys]
  | cons element rest ih => simp [elementsHaveUniqueKeys, ih]

theorem fieldsHaveUniqueKeys_iff {fields : List (String × Json)} :
    fieldsHaveUniqueKeys fields = true ↔
      ∀ key value, (key, value) ∈ fields → value.hasUniqueKeys = true := by
  induction fields with
  | nil => simp [fieldsHaveUniqueKeys]
  | cons field rest ih =>
    obtain ⟨k, v⟩ := field
    simp only [fieldsHaveUniqueKeys, Bool.and_eq_true, ih, List.mem_cons, Prod.mk.injEq]
    constructor
    . rintro ⟨hv, hrest⟩ key value (⟨-, rfl⟩ | h)
      . exact hv
      . exact hrest key value h
    . intro h
      exact ⟨h k v (Or.inl ⟨rfl, rfl⟩), fun key value hmem => h key value (Or.inr hmem)⟩

theorem hasUniqueKeys_object_iff {fields : List (String × Json)} :
    (Json.object fields).hasUniqueKeys = true ↔
      (Entries.keys fields).Nodup ∧
        ∀ key value, (key, value) ∈ fields → value.hasUniqueKeys = true := by
  simp only [hasUniqueKeys, Bool.and_eq_true, decide_eq_true_eq, fieldsHaveUniqueKeys_iff]

theorem hasUniqueKeys_of_field? {node value : Json} {key : String}
    (hnode : node.hasUniqueKeys = true) (h : node.field? key = some value) :
    value.hasUniqueKeys = true := by
  cases node with
  | object fields => exact (hasUniqueKeys_object_iff.1 hnode).2 key value (Entries.mem_of_get? h)
  | _ => simp [field?] at h

theorem hasUniqueKeys_of_array {node value : Json} {elements : List Json}
    (hnode : node.hasUniqueKeys = true) (h : node.array? = some elements)
    (hvalue : value ∈ elements) : value.hasUniqueKeys = true := by
  cases node with
  | array values =>
    cases h
    exact elementsHaveUniqueKeys_iff.1 hnode value hvalue
  | _ => simp [array?] at h

end Json

end SchemaGraph
