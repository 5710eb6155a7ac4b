import Mathlib.Data.List.Basic
import SchemaGraph.Conversion.RecordMerge
import SchemaGraph.Proofs.Document.UniqueKeys

/-!
This module contains what a merge of records finds for each field: the types of the field in all the
records that have it. When a record lacks the field, there are fewer types than records.
-/

namespace SchemaGraph

namespace RecordMerge

def typesOf (name : String) (records : List Fields) : List Handle :=
  records.flatMap fun fields => (fields.filter fun field => field.1 = name).map Prod.snd

variable {records : List Fields} {found : Entries String (List Handle)} {name : String}

theorem mem_typesOf {type : Handle} :
    type ∈ typesOf name records ↔ ∃ fields ∈ records, (name, type) ∈ fields := by
  unfold typesOf
  simp only [List.mem_flatMap, List.mem_map, List.mem_filter, decide_eq_true_eq]
  constructor
  . rintro ⟨fields, hfields, ⟨name', type'⟩, ⟨hmem, rfl⟩, rfl⟩
    exact ⟨fields, hfields, hmem⟩
  . rintro ⟨fields, hfields, hmem⟩
    exact ⟨fields, hfields, (name, type), ⟨hmem, rfl⟩, rfl⟩

theorem getD_gatherField (found : Entries String (List Handle)) (field : String × Handle)
    (name : String) :
    ((gatherField found field).get? name).getD [] =
      (found.get? name).getD [] ++ if field.1 = name then [field.2] else [] := by
  unfold gatherField
  rw [Entries.get?_put]
  split
  . next heq =>
    subst heq
    rfl
  . rw [List.append_nil]

theorem getD_foldl_gatherField (fields : Fields) (found : Entries String (List Handle))
    (name : String) :
    ((fields.foldl gatherField found).get? name).getD [] =
      (found.get? name).getD [] ++
        (fields.filter fun field => field.1 = name).map Prod.snd := by
  induction fields generalizing found with
  | nil => simp
  | cons field rest ih =>
    rw [List.foldl_cons, ih, getD_gatherField, List.append_assoc, List.filter_cons]
    split
    . next heq =>
      rw [if_pos (decide_eq_true heq)]
      rfl
    . next hne =>
      rw [if_neg (by simpa using hne)]
      rfl

theorem gather_eq_foldl (records : List Fields) :
    gather records = records.flatten.foldl gatherField [] :=
  List.foldl_flatten.symm

theorem getD_gather (records : List Fields) (name : String) :
    ((gather records).get? name).getD [] = typesOf name records := by
  rw [gather_eq_foldl, getD_foldl_gatherField, List.filter_flatten, List.map_flatten, typesOf,
    List.flatMap_def, List.map_map]
  rfl

theorem keys_foldl_gatherField (fields : Fields) (found : Entries String (List Handle)) :
    (fields.foldl gatherField found).keys =
      found.keys ++ (distinct (Entries.keys fields)).filter fun name => name ∉ found.keys := by
  induction fields generalizing found with
  | nil => simp [Entries.keys, distinct]
  | cons field rest ih =>
    have hdistinct : distinct (Entries.keys (field :: rest)) =
        field.1 :: (distinct (Entries.keys rest)).filter fun name => name ≠ field.1 := rfl
    rw [List.foldl_cons, ih, hdistinct]
    unfold gatherField
    rw [Entries.keys_put]
    by_cases hknown : field.1 ∈ found.keys
    . rw [if_pos hknown, List.filter_cons_of_neg (by simpa using hknown), List.filter_filter]
      refine congrArg _ (List.filter_congr fun name _ => ?_)
      by_cases hname : name ∈ found.keys
      . simp [hname]
      . have hne : name ≠ field.1 := fun heq => hname (heq ▸ hknown)
        simp [hname, hne]
    . rw [if_neg hknown, List.filter_cons_of_pos (by simpa using hknown), List.filter_filter,
        List.append_assoc]
      refine congrArg _ (congrArg _ (List.filter_congr fun name _ => ?_))
      simp [not_or]

theorem keys_gather (records : List Fields) :
    (gather records).keys = distinct (records.flatMap Entries.keys) := by
  have hkeys : Entries.keys records.flatten = records.flatMap Entries.keys := List.map_flatten
  rw [gather_eq_foldl, keys_foldl_gatherField, hkeys]
  simp [Entries.keys]

theorem nodup_keys_gather (records : List Fields) : (gather records).keys.Nodup := by
  rw [keys_gather]
  exact nodup_distinct _

theorem mem_keys_gather :
    name ∈ (gather records).keys ↔ ∃ fields ∈ records, name ∈ Entries.keys fields := by
  rw [keys_gather, mem_distinct, List.mem_flatMap]

theorem eq_typesOf_of_mem_gather {types : List Handle} (h : (name, types) ∈ gather records) :
    types = typesOf name records := by
  have hget := Entries.get?_of_mem (nodup_keys_gather records) h
  rw [← getD_gather, hget]
  rfl

theorem ne_nil_of_mem_gather {entry : String × List Handle} (h : entry ∈ gather records) :
    entry.2 ≠ [] := by
  obtain ⟨name, types⟩ := entry
  obtain ⟨fields, hfields, hname⟩ := mem_keys_gather.1 (List.mem_map_of_mem h)
  obtain ⟨⟨_, type⟩, hfield, rfl⟩ := List.mem_map.1 hname
  rw [eq_typesOf_of_mem_gather h]
  exact List.ne_nil_of_mem (mem_typesOf.2 ⟨fields, hfields, hfield⟩)

theorem mem_gather_of_mem {fields : Fields} (hfields : fields ∈ records)
    (hname : name ∈ Entries.keys fields) : (name, typesOf name records) ∈ gather records := by
  have hkeys := mem_keys_gather.2 ⟨fields, hfields, hname⟩
  obtain ⟨types, htypes⟩ := Entries.mem_keys_iff.1 hkeys
  have hmem := Entries.mem_of_get? htypes
  rwa [← eq_typesOf_of_mem_gather hmem]

theorem filter_name_eq_nil {fields : Fields} (hname : name ∉ Entries.keys fields) :
    (fields.filter fun field => field.1 = name) = [] := by
  rw [List.filter_eq_nil_iff]
  intro field hfield heq
  apply hname
  rw [← of_decide_eq_true heq]
  exact List.mem_map_of_mem hfield

theorem map_filter_name_eq {fields : Fields} (hkeys : (Entries.keys fields).Nodup)
    (name : String) :
    (fields.filter fun field => field.1 = name).map Prod.snd =
      (Entries.get? fields name).toList := by
  induction fields with
  | nil => rfl
  | cons field rest ih =>
    simp only [Entries.keys, List.map_cons, List.nodup_cons] at hkeys
    by_cases heq : field.1 = name
    . have hrest : name ∉ Entries.keys rest := by
        rw [← heq]
        exact hkeys.1
      rw [List.filter_cons_of_pos (by simpa using heq), filter_name_eq_nil hrest, Entries.get?,
        if_pos heq]
      rfl
    . rw [List.filter_cons_of_neg (by simpa using heq), Entries.get?, if_neg heq]
      exact ih hkeys.2

theorem typesOf_eq_filterMap (hkeys : ∀ fields ∈ records, (Entries.keys fields).Nodup)
    (name : String) :
    typesOf name records = records.filterMap fun fields => Entries.get? fields name := by
  rw [List.filterMap_eq_flatMap_toList]
  exact List.flatMap_congr fun fields hfields => map_filter_name_eq (hkeys fields hfields) name

theorem length_typesOf_lt_iff (hkeys : ∀ fields ∈ records, (Entries.keys fields).Nodup)
    (name : String) :
    (typesOf name records).length < records.length ↔
      ∃ fields ∈ records, name ∉ Entries.keys fields := by
  rw [typesOf_eq_filterMap hkeys, Nat.lt_iff_le_and_ne, ne_eq, List.filterMap_length_eq_length]
  have hle := List.length_filterMap_le (fun fields : Fields => Entries.get? fields name) records
  simp only [hle, true_and, not_forall, exists_prop, Bool.not_eq_true,
    Option.isSome_eq_false_iff, Option.isNone_iff_eq_none, Entries.get?_eq_none_iff]

end RecordMerge

end SchemaGraph
