import SchemaGraph.Proofs.Graph.Interning
import SchemaGraph.Proofs.Graph.Naming

/-!
This module contains the proof that the name of a node tells its history. Every request that is
answered by a node through sharing may put a name on it, and a record gets its name when it is made.
At any time the name of a node is the first explicit one of the names that it was given so far, or
the first of them if none is explicit. Primitive types, arrays and maps are given none.
-/

namespace SchemaGraph

namespace NameHint

def join (held : Option NameHint) (hint : NameHint) : Option NameHint :=
  match held with
  | none => some hint
  | some old => some (old.strengthen hint)

def strongest? (hints : List NameHint) : Option NameHint :=
  (hints.find? fun hint => !hint.isInferred).or hints.head?

theorem strongest?_cons_cons (old hint : NameHint) (hints : List NameHint) :
    strongest? (old :: hint :: hints) = strongest? (old.strengthen hint :: hints) := by
  unfold strongest? strengthen
  cases hold : old.isInferred <;> cases hhint : hint.isInferred <;> simp [hold, hhint]

theorem foldl_join_some (old : NameHint) (hints : List NameHint) :
    hints.foldl join (some old) = strongest? (old :: hints) := by
  induction hints generalizing old with
  | nil => cases hold : old.isInferred <;> simp [strongest?, hold]
  | cons hint hints ih =>
    rw [strongest?_cons_cons, ← ih]
    rfl

theorem foldl_join_none (hints : List NameHint) : hints.foldl join none = strongest? hints := by
  cases hints with
  | nil => rfl
  | cons hint hints => exact foldl_join_some hint hints

end NameHint

def Shape.isNamed : Shape → Bool
  | .primitive _ => false
  | .array _ => false
  | .map _ => false
  | _ => true

theorem Shape.Becomes.isNamed {a b : Shape} (h : a.Becomes b) : b.isNamed = a.isNamed := by
  cases h with
  | same => rfl
  | record fields => rfl
  | map values => rfl

theorem Key.isNamed_shape (key : Key) : key.shape.isNamed = key.isNamed := by
  cases key <;> rfl

theorem Key.shape_ne_record (key : Key) (fields : Slot Fields) : key.shape ≠ .record fields := by
  cases key <;> simp [Key.shape]

namespace Request

/--
The name that a request puts on the node that it is answered by. A nullable of a type that has null
already puts none on that type.
-/
def offers? (g : Graph) : Request → Option NameHint
  | .string hint => some hint
  | .enum hint _ => some hint
  | .openRecord hint => some hint
  | .record hint _ => some hint
  | .union hint _ => some hint
  | .nullable inner hint => if (g.shape? inner).any Graph.admitsNull then none else some hint
  | _ => none

def recordHint? : Request → Option NameHint
  | .openRecord hint => some hint
  | .record hint _ => some hint
  | _ => none

def isNameless : Request → Bool
  | .primitive _ => true
  | .array _ => true
  | .map _ => true
  | .openMap => true
  | _ => false

variable {request : Request} {g : Graph} {hint : NameHint}

theorem asks?_or_adds?_of_offers? (hoffers : request.offers? g = some hint) :
    (∃ key, request.asks? g = some key ∧ key.isNamed = true) ∨
      ∃ fields, request.adds? = some (.record fields) := by
  cases request with
  | string _ => exact Or.inl ⟨_, rfl, rfl⟩
  | enum _ _ => exact Or.inl ⟨_, rfl, rfl⟩
  | union _ _ => exact Or.inl ⟨_, rfl, rfl⟩
  | nullable inner _ =>
    simp only [offers?] at hoffers
    split at hoffers
    . cases hoffers
    . next hadmits => exact Or.inl ⟨.nullable inner, if_neg hadmits, rfl⟩
  | openRecord _ => exact Or.inr ⟨_, rfl⟩
  | record _ _ => exact Or.inr ⟨_, rfl⟩
  | _ => cases hoffers

theorem asks?_or_adds?_of_isNameless (hnameless : request.isNameless = true) (g : Graph) :
    (∃ key, request.asks? g = some key ∧ key.isNamed = false) ∨
      request.adds? = some (.map .pending) := by
  cases request with
  | primitive _ => exact Or.inl ⟨_, rfl, rfl⟩
  | array _ => exact Or.inl ⟨_, rfl, rfl⟩
  | map _ => exact Or.inl ⟨_, rfl, rfl⟩
  | openMap => exact Or.inr rfl
  | _ => cases hnameless

theorem offers?_of_recordHint? (hrecord : request.recordHint? = some hint) (g : Graph) :
    request.offers? g = some hint ∧ ∃ fields, request.adds? = some (.record fields) := by
  cases request with
  | openRecord _ => exact ⟨hrecord, _, rfl⟩
  | record _ _ => exact ⟨hrecord, _, rfl⟩
  | _ => cases hrecord

theorem offers?_of_fills? {filling : Handle × Shape} (hfills : request.fills? = some filling)
    (g : Graph) : request.offers? g = none := by
  cases request <;> first | rfl | cases hfills

end Request

namespace Graph

def namesGiven (g : Graph) (request : Request) (h : Handle) : List NameHint :=
  match (g.perform request).1 with
  | .ok answer => if answer = h then (request.offers? g).toList else []
  | .error _ => []

def namesOf : Graph → List Request → Handle → List NameHint
  | _, [], _ => []
  | g, request :: rest, h => g.namesGiven request h ++ (g.perform request).2.namesOf rest h

def Names (g : Graph) (r : Handle × Graph) (hint : Option NameHint) : Prop :=
  ∀ h, r.2.hint? h = if r.1 = h then hint.toList.foldl NameHint.join (g.hint? h) else g.hint? h

variable {g : Graph} {h : Handle} {request : Request} {hint : NameHint}

theorem hint?_of_not_has (hhas : ¬g.Has h) : g.hint? h = none := by
  unfold hint? node?
  rw [Array.getElem?_eq_none (Nat.le_of_not_lt hhas)]
  rfl

theorem names_self (g : Graph) (h : Handle) : g.Names (h, g) none := by
  intro k
  exact (ite_self _).symm

theorem names_push (g : Graph) (shape : Shape) (hint : Option NameHint) :
    g.Names (g.push ⟨shape, hint⟩) hint := by
  intro h
  have hindex : h.index = g.size ↔ (g.push ⟨shape, hint⟩).1 = h := by
    cases h
    simp [push, size, eq_comm]
  unfold hint?
  rw [node?_push]
  by_cases hnew : (g.push ⟨shape, hint⟩).1 = h
  . rw [if_pos (hindex.2 hnew), if_pos hnew]
    have hnone : g.hint? h = none := by
      rw [← hnew]
      exact hint?_of_not_has (not_has_push g _)
    unfold hint? at hnone
    rw [hnone]
    cases hint <;> rfl
  . rw [if_neg (mt hindex.1 hnew), if_neg hnew]

theorem names_addHint (hhas : g.Has h) (hint : NameHint) :
    g.Names (h, g.addHint h hint) (some hint) := by
  obtain ⟨node, hnode⟩ : ∃ node, g.node? h = some node := ⟨_, Array.getElem?_eq_getElem hhas⟩
  intro k
  unfold addHint hint?
  rw [hnode]
  dsimp only
  rw [node?_setIfInBounds]
  by_cases heq : k = h
  . subst heq
    rw [if_pos rfl, if_pos rfl, hnode]
    cases hhint : node.hint <;> simp [NameHint.join, hhint]
  . rw [if_neg heq, if_neg (Ne.symm heq)]

theorem names_share (hg : g.Interned) (key : Key) (shape : Shape) (hint : Option NameHint) :
    g.Names (g.share key shape hint) hint := by
  unfold share
  cases hshared : g.shared? key with
  | some h =>
    obtain ⟨key', -, hmem⟩ := shared?_eq_some hshared
    cases hint with
    | none => exact names_self g h
    | some hint => exact names_addHint (hg.has hmem) hint
  | none => exact names_push g shape hint

theorem hint?_setShape (g : Graph) (target h : Handle) (shape : Shape) :
    (g.setShape target shape).hint? h = g.hint? h := by
  unfold setShape
  cases hnode : g.node? target with
  | none => rfl
  | some node =>
    unfold hint?
    dsimp only
    rw [node?_setIfInBounds]
    split
    . next heq =>
      subst heq
      rw [hnode]
      rfl
    . rfl

theorem Names.perform {r : Handle × Graph} (hr : g.Names r (request.offers? g))
    (hperform : g.perform request = (.ok r.1, r.2)) (h : Handle) :
    (g.perform request).2.hint? h =
      (g.namesGiven request h).foldl NameHint.join (g.hint? h) := by
  unfold namesGiven
  rw [hperform, hr h]
  dsimp only
  split
  . rfl
  . rfl

theorem hint?_perform (hg : g.Interned) (request : Request) (h : Handle) :
    (g.perform request).2.hint? h =
      (g.namesGiven request h).foldl NameHint.join (g.hint? h) := by
  cases hfills : request.fills? with
  | some filling =>
    obtain ⟨target, shape⟩ := filling
    have hnames : g.namesGiven request h = [] := by
      unfold namesGiven
      rw [Request.offers?_of_fills? hfills]
      split
      . exact ite_self _
      . rfl
    rw [hnames, perform_of_fills? g hfills]
    split
    . exact hint?_setShape g target h shape
    . rfl
  | none =>
    cases request with
    | primitive kind => exact Names.perform (names_share hg _ _ none) rfl h
    | string hint => exact Names.perform (names_share hg _ _ (some hint)) rfl h
    | enum hint cases => exact Names.perform (names_share hg _ _ (some hint)) rfl h
    | array items => exact Names.perform (names_share hg _ _ none) rfl h
    | map values => exact Names.perform (names_share hg _ _ none) rfl h
    | openMap => exact Names.perform (names_push g _ none) rfl h
    | openRecord hint => exact Names.perform (names_push g _ (some hint)) rfl h
    | record hint fields => exact Names.perform (names_push g _ (some hint)) rfl h
    | union hint members => exact Names.perform (names_share hg _ _ (some hint)) rfl h
    | nullable inner hint =>
      have hnames :
          g.Names (g.addNullable inner hint) (Request.offers? g (.nullable inner hint)) := by
        simp only [addNullable, Request.offers?]
        split
        . exact names_self g inner
        . exact names_share hg _ _ (some hint)
      exact hnames.perform rfl h
    | fillMap target values => cases hfills
    | fillRecord target fields => cases hfills

theorem hint?_after (hg : g.Interned) (requests : List Request) (h : Handle) :
    (g.after requests).hint? h = (g.namesOf requests h).foldl NameHint.join (g.hint? h) := by
  induction requests generalizing g with
  | nil => rfl
  | cons request requests ih =>
    unfold namesOf
    rw [after_cons, List.foldl_append, ← hint?_perform hg request h]
    exact ih (hg.performs (g.performs request))

theorem namesOf_append (g : Graph) (xs ys : List Request) (h : Handle) :
    g.namesOf (xs ++ ys) h = g.namesOf xs h ++ (g.after xs).namesOf ys h := by
  induction xs generalizing g with
  | nil => rfl
  | cons request xs ih =>
    rw [List.cons_append, namesOf, namesOf, ih, List.append_assoc, after_cons]

theorem mem_namesGiven_iff :
    hint ∈ g.namesGiven request h ↔
      (g.perform request).1 = .ok h ∧ request.offers? g = some hint := by
  unfold namesGiven
  cases hanswer : (g.perform request).1 with
  | error fault => simp
  | ok answer => by_cases heq : answer = h <;> simp [heq]

theorem shape?_of_asks? {key : Key} (hg : g.Interned) (hasks : request.asks? g = some key)
    (hok : (g.perform request).1 = .ok h) :
    ∃ key' : Key, key'.same key = true ∧ (g.perform request).2.shape? h = some key'.shape := by
  have hperforms := g.performs request
  obtain ⟨h', key', hok', hsame, hmem⟩ := hperforms.asked hasks
  cases hok.symm.trans hok'
  exact ⟨key', hsame, (hg.performs hperforms).shape hmem⟩

theorem shape?_of_adds? {shape : Shape} (hadds : request.adds? = some shape)
    (hok : (g.perform request).1 = .ok h) :
    ¬g.Has h ∧ (g.perform request).2.shape? h = some shape := by
  have hperforms := g.performs request
  revert hok hperforms
  generalize g.perform request = r
  intro hok hperforms
  cases hperforms with
  | share _ hasks => cases hadds.symm.trans (Request.adds?_of_asks? hasks)
  | add hint hadds' =>
    cases hadds.symm.trans hadds'
    cases hok
    exact ⟨not_has_push g _, shape?_push_self g _⟩
  | keep _ _ hadds' _ => cases hadds.symm.trans hadds'
  | fill hfills _ => cases (Request.fills?_of_adds? hadds).symm.trans hfills
  | refuse hfills _ => cases hok

theorem isNamed_of_asks? {key : Key} (hg : g.Interned) (hasks : request.asks? g = some key)
    (hok : (g.perform request).1 = .ok h) :
    ∃ shape, (g.perform request).2.shape? h = some shape ∧ shape.isNamed = key.isNamed := by
  obtain ⟨key', hsame, hshape⟩ := shape?_of_asks? hg hasks hok
  exact ⟨_, hshape, by rw [Key.isNamed_shape, Key.isNamed_of_same hsame]⟩

theorem isNamed_of_mem_namesGiven (hg : g.Interned) (hmem : hint ∈ g.namesGiven request h) :
    ∃ shape, (g.perform request).2.shape? h = some shape ∧ shape.isNamed = true := by
  obtain ⟨hok, hoffers⟩ := mem_namesGiven_iff.1 hmem
  rcases Request.asks?_or_adds?_of_offers? hoffers with ⟨key, hasks, hnamed⟩ | ⟨fields, hadds⟩
  . rw [← hnamed]
    exact isNamed_of_asks? hg hasks hok
  . exact ⟨_, (shape?_of_adds? hadds hok).2, rfl⟩

theorem isNamed_eq_false_of_isNameless (hg : g.Interned) (hnameless : request.isNameless = true)
    (hok : (g.perform request).1 = .ok h) :
    ∃ shape, (g.perform request).2.shape? h = some shape ∧ shape.isNamed = false := by
  rcases Request.asks?_or_adds?_of_isNameless hnameless g with ⟨key, hasks, hnamed⟩ | hadds
  . rw [← hnamed]
    exact isNamed_of_asks? hg hasks hok
  . exact ⟨_, (shape?_of_adds? hadds hok).2, rfl⟩

theorem isNamed_of_mem_namesOf (hg : g.Interned) {requests : List Request}
    (hmem : hint ∈ g.namesOf requests h) :
    ∃ shape, (g.after requests).shape? h = some shape ∧ shape.isNamed = true := by
  induction requests generalizing g with
  | nil => cases hmem
  | cons request requests ih =>
    rcases List.mem_append.1 hmem with hnow | hlater
    . obtain ⟨shape, hshape, hnamed⟩ := isNamed_of_mem_namesGiven hg hnow
      obtain ⟨shape', hshape', hbecomes⟩ := evolves_after _ requests h shape hshape
      exact ⟨shape', hshape', hbecomes.isNamed.trans hnamed⟩
    . exact ih (hg.performs (g.performs request)) hlater

theorem namesOf_eq_nil_of_record (hg : g.Interned) {fields : Slot Fields}
    (hshape : g.shape? h = some (.record fields)) (requests : List Request) :
    g.namesOf requests h = [] := by
  -- No request shares a record.
  induction requests generalizing g fields with
  | nil => rfl
  | cons request requests ih =>
    have hperforms := g.performs request
    obtain ⟨shape', hshape', hbecomes⟩ := hperforms.evolves h _ hshape
    obtain ⟨fields', rfl⟩ : ∃ fields', shape' = .record fields' := by
      cases hbecomes with
      | same => exact ⟨_, rfl⟩
      | record fields => exact ⟨_, rfl⟩
    have hnow : g.namesGiven request h = [] := by
      refine List.eq_nil_iff_forall_not_mem.2 fun hint hmem => ?_
      obtain ⟨hok, hoffers⟩ := mem_namesGiven_iff.1 hmem
      rcases Request.asks?_or_adds?_of_offers? hoffers with ⟨key, hasks, -⟩ | ⟨fields, hadds⟩
      . obtain ⟨key', -, hshared⟩ := shape?_of_asks? hg hasks hok
        exact key'.shape_ne_record fields' (Option.some.inj (hshared.symm.trans hshape'))
      . exact (shape?_of_adds? hadds hok).1 (has_of_shape? hshape)
    rw [namesOf, hnow, ih (hg.performs hperforms) hshape']
    rfl

theorem namesOf_eq_nil_of_not_has (hg : g.Interned) {requests : List Request}
    (hhas : ¬(g.after requests).Has h) : g.namesOf requests h = [] := by
  refine List.eq_nil_iff_forall_not_mem.2 fun hint hmem => ?_
  obtain ⟨shape, hshape, -⟩ := isNamed_of_mem_namesOf hg hmem
  exact hhas (has_of_shape? hshape)

/--
Take any history of requests with whatever handles, and any handle. The name of the node is the
first explicit one of the names that the requests of the history have put on it, or the first one if
none of them is explicit. If a request for a record was answered by the node, this is the one name
that was ever put on it. If a request for a primitive type, an array or a map was answered by the
node, no name was ever put on it, and it has none.
-/
theorem name_of_history (requests : List Request) (h : Handle) :
    let g := empty.after requests
    g.hint? h = NameHint.strongest? (empty.namesOf requests h) ∧
    ∀ earlier request later, requests = earlier ++ request :: later →
      ((empty.after earlier).perform request).1 = .ok h →
      (∀ hint, request.recordHint? = some hint → empty.namesOf requests h = [hint]) ∧
      (request.isNameless = true → empty.namesOf requests h = [] ∧ g.hint? h = none) := by
  intro g
  have hname : g.hint? h = NameHint.strongest? (empty.namesOf requests h) := by
    rw [← NameHint.foldl_join_none]
    exact hint?_after interned_empty requests h
  refine ⟨hname, ?_⟩
  rintro earlier request later rfl hok
  have hearlier : (empty.after earlier).Interned := interned_empty.after earlier
  have hnow := hearlier.performs ((empty.after earlier).performs request)
  constructor
  . intro hint hrecord
    obtain ⟨hoffers, fields, hadds⟩ := Request.offers?_of_recordHint? hrecord (empty.after earlier)
    obtain ⟨hnew, hshape⟩ := shape?_of_adds? hadds hok
    have hgiven : (empty.after earlier).namesGiven request h = [hint] := by
      simp [namesGiven, hok, hoffers]
    rw [namesOf_append, namesOf_eq_nil_of_not_has interned_empty hnew, namesOf, hgiven,
      namesOf_eq_nil_of_record hnow hshape]
    rfl
  . intro hnameless
    obtain ⟨shape, hshape, hfalse⟩ := isNamed_eq_false_of_isNameless hearlier hnameless hok
    have hnil : empty.namesOf (earlier ++ request :: later) h = [] := by
      refine List.eq_nil_iff_forall_not_mem.2 fun hint hmem => ?_
      obtain ⟨shape', hshape', htrue⟩ := isNamed_of_mem_namesOf interned_empty hmem
      rw [after_append, after_cons] at hshape'
      obtain ⟨shape'', hshape'', hbecomes⟩ := evolves_after _ later h shape hshape
      cases hshape'.symm.trans hshape''
      cases htrue.symm.trans (hbecomes.isNamed.trans hfalse)
    refine ⟨hnil, ?_⟩
    rw [hname, hnil]
    rfl

def sharingHistory : List Request := [
  .openRecord (.inferred "node"),
  .string (.inferred "field"),
  .array ⟨0⟩,
  .string (.explicit "Title"),
  .nullable ⟨1⟩ (.inferred "next"),
  .nullable ⟨3⟩ (.explicit "unheeded"),
  .string (.explicit "Other"),
  .fillRecord ⟨0⟩ [("next", ⟨3⟩)]]

theorem name_of_history_sharing :
    (empty.after sharingHistory).hint? ⟨1⟩ = some (.explicit "Title") ∧
      (empty.after sharingHistory).hint? ⟨3⟩ = some (.inferred "next") ∧
      empty.namesOf sharingHistory ⟨0⟩ = [.inferred "node"] ∧
      (empty.after sharingHistory).hint? ⟨2⟩ = none := by
  have hrecord : ((empty.after []).perform (.openRecord (.inferred "node"))).1 = .ok ⟨0⟩ := rfl
  have harray : ((empty.after (sharingHistory.take 2)).perform (.array ⟨0⟩)).1 = .ok ⟨2⟩ := rfl
  refine ⟨(name_of_history sharingHistory ⟨1⟩).1, (name_of_history sharingHistory ⟨3⟩).1, ?_, ?_⟩
  . exact ((name_of_history sharingHistory ⟨0⟩).2 [] _ (sharingHistory.drop 1) rfl hrecord).1 _ rfl
  . exact (((name_of_history sharingHistory ⟨2⟩).2 (sharingHistory.take 2) _
      (sharingHistory.drop 3) rfl harray).2 rfl).2

end Graph

end SchemaGraph
