import Mathlib.Data.List.Forall2
import SchemaGraph.Entries
import SchemaGraph.Fault

/-!
This module contains how results, lists and entries are compared element by element.
-/

namespace SchemaGraph

variable {α β γ δ κ : Type} {r : α → β → Prop} {q : γ → δ → Prop}

inductive Agree (r : α → β → Prop) : Except Fault α → Except Fault β → Prop
  | faults (fault fault' : Fault) : Agree r (.error fault) (.error fault')
  | values {a : α} {b : β} (h : r a b) : Agree r (.ok a) (.ok b)

theorem Agree.bind {x : Except Fault α} {y : Except Fault β} {f : α → Except Fault γ}
    {g : β → Except Fault δ} (h : Agree r x y) (hnext : ∀ a b, r a b → Agree q (f a) (g b)) :
    Agree q (x >>= f) (y >>= g) := by
  cases h with
  | faults fault fault' => exact .faults fault fault'
  | values h => exact hnext _ _ h

theorem Agree.map {x : Except Fault α} {y : Except Fault β} {f : α → γ} {g : β → δ}
    (h : Agree r x y) (hvalues : ∀ a b, r a b → q (f a) (g b)) : Agree q (x.map f) (y.map g) := by
  cases h with
  | faults fault fault' => exact .faults fault fault'
  | values h => exact .values (hvalues _ _ h)

theorem rel_bind {a : Option α} {b : Option β} {f : α → Option γ} {g : β → Option δ}
    (h : Option.Rel r a b) (hnext : ∀ a b, r a b → Option.Rel q (f a) (g b)) :
    Option.Rel q (a.bind f) (b.bind g) := by
  cases h with
  | none => exact .none
  | some h => exact hnext _ _ h

theorem getElem?_of_forall₂ {as : List α} {bs : List β} (h : List.Forall₂ r as bs)
    (index : Nat) : Option.Rel r as[index]? bs[index]? := by
  induction h generalizing index with
  | nil => exact .none
  | cons hab _ ih =>
    cases index with
    | zero => exact .some hab
    | succ index => exact ih index

theorem exists_of_mem_of_forall₂ {as : List α} {bs : List β} (h : List.Forall₂ r as bs) {a : α}
    (ha : a ∈ as) : ∃ b ∈ bs, r a b := by
  induction h with
  | nil => cases ha
  | cons hab _ ih =>
    rcases List.mem_cons.1 ha with rfl | ha
    . exact ⟨_, List.mem_cons_self .., hab⟩
    . obtain ⟨b, hb, hr⟩ := ih ha
      exact ⟨b, List.mem_cons_of_mem _ hb, hr⟩

theorem eq_nil_iff_of_forall₂ {as : List α} {bs : List β} (h : List.Forall₂ r as bs) :
    as = [] ↔ bs = [] := by
  cases h with
  | nil => exact ⟨fun _ => rfl, fun _ => rfl⟩
  | cons _ _ => exact ⟨nofun, nofun⟩

theorem forall₂_flatMap {as : List α} {bs : List β} {f : α → List γ} {g : β → List δ}
    (h : List.Forall₂ r as bs) (hfg : ∀ a ∈ as, ∀ b ∈ bs, r a b → List.Forall₂ q (f a) (g b)) :
    List.Forall₂ q (as.flatMap f) (bs.flatMap g) := by
  induction h with
  | nil => exact .nil
  | cons hab _ ih =>
    rw [List.flatMap_cons, List.flatMap_cons]
    refine List.rel_append (hfg _ (List.mem_cons_self ..) _ (List.mem_cons_self ..) hab) ?_
    exact ih fun a ha b hb => hfg a (List.mem_cons_of_mem _ ha) b (List.mem_cons_of_mem _ hb)

theorem forall₂_distinct {α β : Type} [DecidableEq α] [DecidableEq β] {r : α → β → Prop}
    (hr : Relator.BiUnique r) {as : List α} {bs : List β} (h : List.Forall₂ r as bs) :
    List.Forall₂ r (distinct as) (distinct bs) := by
  induction h with
  | nil => exact .nil
  | cons hab _ ih =>
    refine .cons hab (List.rel_filter ?_ ih)
    intro c d hcd
    simp only [decide_eq_true_eq]
    constructor
    . rintro hne rfl
      exact hne (hr.1 hcd hab)
    . rintro hne rfl
      exact hne (hr.2 hcd hab)

namespace Entries

abbrev Related (r : α → β → Prop) (entries : Entries κ α) (entries' : Entries κ β) : Prop :=
  List.Forall₂ (fun entry entry' => entry.1 = entry'.1 ∧ r entry.2 entry'.2) entries entries'

variable {entries : Entries κ α} {entries' : Entries κ β}

theorem Related.keys_eq (h : entries.Related r entries') : entries.keys = entries'.keys := by
  induction h with
  | nil => rfl
  | cons hentry _ ih =>
    unfold keys at ih ⊢
    rw [List.map_cons, List.map_cons, hentry.1, ih]

variable [DecidableEq κ]

theorem Related.get? (h : entries.Related r entries') (key : κ) :
    Option.Rel r (entries.get? key) (entries'.get? key) := by
  induction h with
  | nil => exact .none
  | @cons entry entry' _ _ hentry _ ih =>
    obtain ⟨k, a⟩ := entry
    obtain ⟨k', b⟩ := entry'
    obtain ⟨rfl, hr⟩ := hentry
    unfold Entries.get?
    split
    . exact .some hr
    . exact ih

theorem Related.put (h : entries.Related r entries') (key : κ) {a : α} {b : β} (hab : r a b) :
    (entries.put key a).Related r (entries'.put key b) := by
  induction h with
  | nil => exact .cons ⟨rfl, hab⟩ .nil
  | @cons entry entry' _ _ hentry hrest ih =>
    obtain ⟨k, c⟩ := entry
    obtain ⟨k', d⟩ := entry'
    obtain ⟨rfl, hr⟩ := hentry
    unfold Entries.put
    split
    . exact .cons ⟨rfl, hab⟩ hrest
    . exact .cons ⟨rfl, hr⟩ ih

end Entries

end SchemaGraph
