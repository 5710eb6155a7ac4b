/-!
This module contains ordered entries: lists of keyed values in which writing under a known key
keeps that key's position and replaces its value. The fields of a JSON object, the fields of a
record type and the table of converted locations are entries. It also contains `distinct`, the
list of first occurrences, which plays the same part for sets.
-/

namespace SchemaGraph

def distinct {α : Type} [DecidableEq α] : List α → List α
  | [] => []
  | a :: rest => a :: (distinct rest).filter (fun b => b ≠ a)

@[simp]
theorem mem_distinct {α : Type} [DecidableEq α] {a : α} {as : List α} :
    a ∈ distinct as ↔ a ∈ as := by
  induction as with
  | nil => simp [distinct]
  | cons b rest ih =>
    by_cases h : a = b
    . simp [distinct, h]
    . simp [distinct, h, ih]

theorem nodup_distinct {α : Type} [DecidableEq α] (as : List α) : (distinct as).Nodup := by
  induction as with
  | nil => simp [distinct]
  | cons b rest ih =>
    simp only [distinct, List.nodup_cons]
    exact ⟨by simp, ih.filter _⟩

abbrev Entries (κ α : Type) := List (κ × α)

namespace Entries

variable {κ α : Type}

def keys (entries : Entries κ α) : List κ :=
  entries.map Prod.fst

variable [DecidableEq κ]

def get? : Entries κ α → κ → Option α
  | [], _ => none
  | (k, a) :: rest, key => if k = key then some a else get? rest key

def put : Entries κ α → κ → α → Entries κ α
  | [], key, value => [(key, value)]
  | (k, a) :: rest, key, value =>
    if k = key then (k, value) :: rest else (k, a) :: put rest key value

/--
Write all `pairs` in order: a repeated key keeps its first position and its last value.
-/
def ofList (pairs : List (κ × α)) : Entries κ α :=
  pairs.foldl (fun entries pair => entries.put pair.1 pair.2) []

@[simp]
theorem get?_nil (key : κ) : get? ([] : Entries κ α) key = none := rfl

theorem get?_put (entries : Entries κ α) (key key' : κ) (value : α) :
    (entries.put key value).get? key' = if key = key' then some value else entries.get? key' := by
  induction entries with
  | nil => simp [put, get?]
  | cons entry rest ih =>
    obtain ⟨k, a⟩ := entry
    by_cases hk : k = key
    . subst hk
      by_cases hk' : k = key' <;> simp [put, get?, hk']
    . by_cases hk' : k = key'
      . subst hk'
        simp [put, get?, hk, Ne.symm hk]
      . simp [put, get?, hk, hk', ih]

theorem keys_put (entries : Entries κ α) (key : κ) (value : α) :
    (entries.put key value).keys =
      if key ∈ entries.keys then entries.keys else entries.keys ++ [key] := by
  induction entries with
  | nil => simp [put, keys]
  | cons entry rest ih =>
    obtain ⟨k, a⟩ := entry
    by_cases hk : k = key
    . simp [put, keys, hk]
    . simp only [keys] at ih
      by_cases h : key ∈ rest.map Prod.fst
      . simp [put, keys, hk, ih, h]
      . simp [put, keys, hk, ih, h, Ne.symm hk]

end Entries

end SchemaGraph
