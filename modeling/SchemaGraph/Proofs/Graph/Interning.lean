import SchemaGraph.Proofs.Graph.Assignment

/-!
This module contains the proof that sharing is exact. At any time in a history of requests the table
says what the shared nodes are, it has every node that is to be shared, and no structure twice. So
two requests give the same node if and only if they ask for the same structure, while a record and
an open map are nodes of their own.
-/

namespace SchemaGraph

/--
Whether a key is the one of a map. An open map that is filled in looks like a shared map without
being one.
-/
def Key.isMap : Key → Bool
  | .map _ => true
  | _ => false

theorem Key.shape_injective {a b : Key} (h : a.shape = b.shape) : a = b := by
  cases a <;> cases b <;> simp_all [Key.shape]

theorem Key.isMap_of_same {a b : Key} (h : a.same b = true) : a.isMap = b.isMap := by
  cases a <;> cases b <;> first | rfl | cases h

theorem Key.same_congr {a a' b b' : Key} (ha : a'.same a = true) (hb : b'.same b = true) :
    a'.same b' = true ↔ a.same b = true := by
  constructor
  . exact fun h => same_trans (same_trans (same_symm ha) h) hb
  . exact fun h => same_trans (same_trans ha h) (same_symm hb)

def Shape.IsUnshared (shape : Shape) : Prop :=
  ∀ key : Key, shape = key.shape → key.isMap = true

theorem Shape.isUnshared_record (fields : Slot Fields) : (Shape.record fields).IsUnshared := by
  intro key hkey
  cases key <;> cases hkey

theorem Shape.isUnshared_map (values : Slot Handle) : (Shape.map values).IsUnshared := by
  intro key hkey
  cases key <;> cases hkey
  rfl

theorem Shape.isUnshared_of_isOpen {shape : Shape} (h : shape.isOpen = true) :
    shape.IsUnshared := by
  rintro key rfl
  rw [key.isOpen_shape] at h
  cases h

theorem Shape.Becomes.isUnshared {old shape : Shape} (h : old.Becomes shape)
    (hopen : old.isOpen = true) : shape.IsUnshared := by
  cases h with
  | same => exact isUnshared_of_isOpen hopen
  | record fields => exact isUnshared_record _
  | map values => exact isUnshared_map _

theorem Request.isUnshared_of_fills? {request : Request} {target : Handle} {shape : Shape}
    (hfills : request.fills? = some (target, shape)) : shape.IsUnshared := by
  cases request with
  | fillMap target values =>
    cases hfills
    exact Shape.isUnshared_map _
  | fillRecord target fields =>
    cases hfills
    exact Shape.isUnshared_record _
  | _ => cases hfills

theorem Request.isUnshared_of_adds? {request : Request} {shape : Shape}
    (hadds : request.adds? = some shape) : shape.IsUnshared := by
  cases request with
  | openMap =>
    cases hadds
    exact Shape.isUnshared_map _
  | openRecord hint =>
    cases hadds
    exact Shape.isUnshared_record _
  | record hint fields =>
    cases hadds
    exact Shape.isUnshared_record _
  | _ => cases hadds

namespace Graph

structure Interned (g : Graph) : Prop where
  shape {key h} : (key, h) ∈ g.shared → g.shape? h = some key.shape
  listed {key h} : g.shape? h = some key.shape → key.isMap = false → (key, h) ∈ g.shared
  single {key key' h h'} : (key, h) ∈ g.shared → (key', h') ∈ g.shared →
    key.same key' = true → h = h'

inductive FindsOrMakes (g : Graph) (key : Key) (shape : Shape) (r : Handle × Graph) : Prop where
  | finds {key' : Key} (hsame : key'.same key = true) (hmem : (key', r.1) ∈ g.shared)
    (hshared : r.2.shared = g.shared) (hshape : ∀ h, r.2.shape? h = g.shape? h)
  | makes (hnew : ∀ key' h, (key', h) ∈ g.shared → key'.same key = false) (hfresh : ¬g.Has r.1)
    (hshared : r.2.shared = (key, r.1) :: g.shared)
    (hshape : ∀ h, r.2.shape? h = if h = r.1 then some shape else g.shape? h)

variable {g g' : Graph} {h : Handle} {key : Key} {shape : Shape} {request : Request}

theorem shape?_push_eq (g : Graph) (node : Node) (h : Handle) :
    (g.push node).2.shape? h = if h = (g.push node).1 then some node.shape else g.shape? h := by
  rw [shape?_push]
  have hindex : h.index = g.size ↔ h = (g.push node).1 := by
    cases h
    simp [push, size]
  simp only [hindex]

theorem findsOrMakes_share (g : Graph) (key : Key) (shape : Shape) (hint : Option NameHint) :
    g.FindsOrMakes key shape (g.share key shape hint) := by
  unfold share
  cases hshared : g.shared? key with
  | some h =>
    obtain ⟨key', hsame, hmem⟩ := shared?_eq_some hshared
    cases hint with
    | none => exact .finds hsame hmem rfl fun _ => rfl
    | some hint =>
      exact .finds hsame hmem (shared_addHint g h hint) fun k => shape?_addHint g h k hint
  | none =>
    refine .makes ?_ (not_has_push g ⟨shape, hint⟩) rfl (shape?_push_eq g ⟨shape, hint⟩)
    intro key' h hmem
    have hfind := List.find?_eq_none.1 (Option.map_eq_none_iff.1 hshared) _ hmem
    simpa using hfind

theorem interned_empty : empty.Interned where
  shape hmem := nomatch hmem
  listed hshape := nomatch hshape
  single hmem := nomatch hmem

namespace Interned

theorem has (hg : g.Interned) (hmem : (key, h) ∈ g.shared) : g.Has h :=
  has_of_shape? (hg.shape hmem)

theorem shared?_of_same (hg : g.Interned) {key' : Key} (hmem : (key', h) ∈ g.shared)
    (hsame : key'.same key = true) : g.shared? key = some h := by
  have hfound : (g.shared.find? fun entry => entry.1.same key).isSome = true :=
    List.find?_isSome.2 ⟨_, hmem, hsame⟩
  obtain ⟨⟨key'', h'⟩, hfind⟩ := Option.isSome_iff_exists.1 hfound
  have hsame' : key''.same key = true := by simpa using List.find?_some hfind
  have heq : h' = h :=
    hg.single (List.mem_of_find?_eq_some hfind) hmem (Key.same_trans hsame' (Key.same_symm hsame))
  unfold shared?
  rw [hfind, ← heq]
  rfl

theorem shared?_eq_some (hg : g.Interned) (hmem : (key, h) ∈ g.shared) : g.shared? key = some h :=
  hg.shared?_of_same hmem (Key.same_refl key)

theorem replace (hg : g.Interned) {target : Handle}
    (hshape : ∀ h, g'.shape? h = if h = target then some shape else g.shape? h)
    (hshared : g'.shared = g.shared) (htarget : ∀ key, (key, target) ∉ g.shared)
    (hunshared : shape.IsUnshared) : g'.Interned where
  shape {key h} hmem := by
    rw [hshared] at hmem
    rw [hshape, if_neg]
    . exact hg.shape hmem
    . rintro rfl
      exact htarget key hmem
  listed {key h} hkey hmap := by
    rw [hshape] at hkey
    rw [hshared]
    split at hkey
    . rw [hunshared key (Option.some.inj hkey)] at hmap
      cases hmap
    . exact hg.listed hkey hmap
  single := by
    rw [hshared]
    exact hg.single

theorem fills (hg : g.Interned) {target : Handle} (hfills : g.Fills target shape g')
    (hunshared : shape.IsUnshared) : g'.Interned := by
  refine hg.replace hfills.shape? hfills.shared ?_ hunshared
  intro key hmem
  obtain ⟨old, hold, hopen⟩ := hfills.pending
  cases (hg.shape hmem).symm.trans hold
  rw [key.isOpen_shape] at hopen
  cases hopen

theorem push (hg : g.Interned) (node : Node) (hunshared : node.shape.IsUnshared) :
    (g.push node).2.Interned :=
  hg.replace (shape?_push_eq g node) rfl (fun _ hmem => not_has_push g node (hg.has hmem)) hunshared

theorem share (hg : g.Interned) {r : Handle × Graph} (hr : g.FindsOrMakes key key.shape r) :
    r.2.Interned := by
  cases hr with
  | finds hsame hmem hshared hshape =>
    refine ⟨?_, ?_, ?_⟩
    . intro key' h hmem
      rw [hshared] at hmem
      rw [hshape]
      exact hg.shape hmem
    . intro key' h hkey hmap
      rw [hshape] at hkey
      rw [hshared]
      exact hg.listed hkey hmap
    . rw [hshared]
      exact hg.single
  | makes hnew hfresh hshared hshape =>
    refine ⟨?_, ?_, ?_⟩
    . intro key' h hmem
      rw [hshared] at hmem
      rw [hshape]
      rcases List.mem_cons.1 hmem with heq | hmem
      . cases heq
        exact if_pos rfl
      . rw [if_neg]
        . exact hg.shape hmem
        . rintro rfl
          exact hfresh (hg.has hmem)
    . intro key' h hkey hmap
      rw [hshape] at hkey
      rw [hshared]
      split at hkey
      . next heq =>
        rw [heq, Key.shape_injective (Option.some.inj hkey)]
        exact List.mem_cons_self ..
      . exact List.mem_cons_of_mem _ (hg.listed hkey hmap)
    . intro key₁ key₂ h₁ h₂ hmem₁ hmem₂ hsame
      rw [hshared] at hmem₁ hmem₂
      rcases List.mem_cons.1 hmem₁ with heq₁ | hmem₁
      . rcases List.mem_cons.1 hmem₂ with heq₂ | hmem₂
        . cases heq₁
          cases heq₂
          rfl
        . cases heq₁
          cases (hnew _ _ hmem₂).symm.trans (Key.same_symm hsame)
      . rcases List.mem_cons.1 hmem₂ with heq₂ | hmem₂
        . cases heq₂
          cases (hnew _ _ hmem₁).symm.trans hsame
        . exact hg.single hmem₁ hmem₂ hsame

theorem performs (hg : g.Interned) {r : Except Fault Handle × Graph}
    (hr : g.Performs request r) : r.2.Interned := by
  cases hr with
  | share hint _ => exact hg.share (findsOrMakes_share g _ _ hint)
  | add hint hadds => exact hg.push _ (Request.isUnshared_of_adds? hadds)
  | keep _ _ _ _ => exact hg
  | fill hfills hopen =>
    exact hg.fills (fills_of_fills? hfills hopen) (Request.isUnshared_of_fills? hfills)
  | refuse _ _ => exact hg

end Interned

section Step

variable {r : Except Fault Handle × Graph}

theorem Performs.shared_subset (hr : g.Performs request r) : g.shared ⊆ r.2.shared := by
  cases hr with
  | @share key hint _ =>
    rcases findsOrMakes_share g key key.shape hint with ⟨-, -, hshared, -⟩ | ⟨-, -, hshared, -⟩
    . rw [hshared]
      exact List.Subset.refl _
    . rw [hshared]
      exact List.subset_cons_self ..
  | add _ _ => exact List.Subset.refl _
  | keep _ _ _ _ => exact List.Subset.refl _
  | fill _ _ =>
    rw [shared_setShape]
    exact List.Subset.refl _
  | refuse _ _ => exact List.Subset.refl _

theorem Performs.mem_shared (hr : g.Performs request r) (hhas : g.Has h)
    (hmem : (key, h) ∈ r.2.shared) : (key, h) ∈ g.shared := by
  cases hr with
  | @share key hint _ =>
    rcases findsOrMakes_share g key key.shape hint with
      ⟨-, -, hshared, -⟩ | ⟨-, hfresh, hshared, -⟩
    . rwa [hshared] at hmem
    . rw [hshared] at hmem
      rcases List.mem_cons.1 hmem with heq | hmem
      . cases heq
        exact absurd hhas hfresh
      . exact hmem
  | add _ _ => exact hmem
  | keep _ _ _ _ => exact hmem
  | fill _ _ => rwa [shared_setShape] at hmem
  | refuse _ _ => exact hmem

theorem Performs.asked (hr : g.Performs request r) (hasks : request.asks? g = some key) :
    ∃ h key', r.1 = .ok h ∧ key'.same key = true ∧ (key', h) ∈ r.2.shared := by
  cases hr with
  | share hint hasks' =>
    cases hasks.symm.trans hasks'
    rcases findsOrMakes_share g key key.shape hint with
      ⟨hsame, hmem, hshared, -⟩ | ⟨-, -, hshared, -⟩
    . exact ⟨_, _, rfl, hsame, by rwa [hshared]⟩
    . exact ⟨_, key, rfl, Key.same_refl key, by rw [hshared]; exact List.mem_cons_self ..⟩
  | add _ hadds => cases (Request.adds?_of_asks? hasks).symm.trans hadds
  | keep _ hasks' _ _ => cases hasks.symm.trans hasks'
  | fill hfills _ => cases (Request.fills?_of_asks? hasks).symm.trans hfills
  | refuse hfills _ => cases (Request.fills?_of_asks? hasks).symm.trans hfills

theorem Performs.answered (hr : g.Performs request r) (hg : g.Interned) (hok : r.1 = .ok h) :
    r.2.Has h := by
  cases hr with
  | @share key hint _ =>
    cases hok
    rcases findsOrMakes_share g key key.shape hint with
      ⟨-, hmem, -, hshape⟩ | ⟨-, -, -, hshape⟩
    . exact has_of_shape? ((hshape _).trans (hg.shape hmem))
    . exact has_of_shape? ((hshape _).trans (if_pos rfl))
  | add hint _ =>
    cases hok
    exact has_of_shape? (shape?_push_self g _)
  | keep hhas _ _ _ =>
    cases hok
    exact hhas
  | fill hfills hopen =>
    cases hok
    exact (fills_of_fills? hfills hopen).evolves.has _ (has_of_shape? hopen)
  | refuse _ _ => cases hok

theorem Performs.added (hr : g.Performs request r) (hadds : request.adds? = some shape) :
    ∃ h, r.1 = .ok h ∧ ¬g.Has h ∧ r.2.Has h ∧ r.2.shared = g.shared := by
  cases hr with
  | share _ hasks => cases hadds.symm.trans (Request.adds?_of_asks? hasks)
  | add hint _ => exact ⟨_, rfl, not_has_push g _, has_of_shape? (shape?_push_self g _), rfl⟩
  | keep _ _ hadds' _ => cases hadds.symm.trans hadds'
  | fill hfills _ => cases (Request.fills?_of_adds? hadds).symm.trans hfills
  | refuse hfills _ => cases (Request.fills?_of_adds? hadds).symm.trans hfills

end Step

theorem Interned.after (hg : g.Interned) (requests : List Request) :
    (g.after requests).Interned := by
  induction requests generalizing g with
  | nil => exact hg
  | cons request requests ih => exact ih (hg.performs (g.performs request))

theorem shared_subset_after (g : Graph) (requests : List Request) :
    g.shared ⊆ (g.after requests).shared := by
  induction requests generalizing g with
  | nil => exact List.Subset.refl _
  | cons request requests ih =>
    exact List.Subset.trans (g.performs request).shared_subset (ih _)

theorem mem_shared_of_mem_after (hhas : g.Has h) {requests : List Request}
    (hmem : (key, h) ∈ (g.after requests).shared) : (key, h) ∈ g.shared := by
  induction requests generalizing g with
  | nil => exact hmem
  | cons request requests ih =>
    have hperforms := g.performs request
    exact hperforms.mem_shared hhas (ih (hperforms.evolves.has h hhas) hmem)

theorem Interned.eq_iff (hg : g.Interned) {h' : Handle} {key' : Key} (hmem : (key, h) ∈ g.shared)
    (hmem' : (key', h') ∈ g.shared) : h = h' ↔ key.same key' = true := by
  constructor
  . rintro rfl
    have hshape : key.shape = key'.shape :=
      Option.some.inj ((hg.shape hmem).symm.trans (hg.shape hmem'))
    rw [Key.shape_injective hshape]
    exact Key.same_refl key'
  . exact hg.single hmem hmem'

theorem Interned.eq_of_same (hg : g.Interned) {h' : Handle} {key' : Key}
    (hsame : key.same key' = true) (hmap : key.isMap = false) (hshape : g.shape? h = some key.shape)
    (hshape' : g.shape? h' = some key'.shape) : h = h' :=
  hg.single (hg.listed hshape hmap)
    (hg.listed hshape' ((Key.isMap_of_same hsame).symm.trans hmap)) hsame

/--
Take any two requests in a history of requests with whatever handles. Every entry of the table
points to a node that has the shape of the key. Every node with such a shape is the one that the
table has for its key, unless it is a map, and no two of them have the same structure. If both
requests ask for shared nodes, they get the same node if and only if their keys stand for the same
structure. If the first one adds a node of its own, no request before has returned it, and it is
never in the table, neither before nor after.
-/
theorem interning_exact (earlier between : List Request) (request request' : Request) :
    let g := empty.after earlier
    let g' := (g.perform request).2.after between
    (∀ key h, (key, h) ∈ g.shared → g.shape? h = some key.shape) ∧
    (∀ key h, g.shape? h = some key.shape → key.isMap = false →
      g.shared? key = some h ∧
      ∀ key' h', g.shape? h' = some key'.shape → key.same key' = true → h = h') ∧
    (∀ key key', request.asks? g = some key → request'.asks? g' = some key' →
      ∃ h h', (g.perform request).1 = .ok h ∧ (g'.perform request').1 = .ok h' ∧
        (h = h' ↔ key.same key' = true)) ∧
    (∀ shape, request.adds? = some shape → ∃ h, (g.perform request).1 = .ok h ∧
      (∀ before x after, earlier = before ++ x :: after →
        ((empty.after before).perform x).1 ≠ .ok h) ∧
      ∀ past future, earlier ++ request :: between = past ++ future →
        ∀ key, (key, h) ∉ (empty.after past).shared) := by
  intro g g'
  have hg : g.Interned := interned_empty.after earlier
  have hperforms : g.Performs request (g.perform request) := g.performs request
  have hg' : g'.Interned := (hg.performs hperforms).after between
  refine ⟨fun key h => hg.shape, ?_, ?_, ?_⟩
  . intro key h hshape hmap
    have hmem := hg.listed hshape hmap
    refine ⟨hg.shared?_eq_some hmem, ?_⟩
    intro key' h' hshape' hsame
    refine hg.single hmem (hg.listed hshape' ?_) hsame
    rwa [← Key.isMap_of_same hsame]
  . intro key key' hasks hasks'
    obtain ⟨h, found, hok, hsame, hmem⟩ := hperforms.asked hasks
    obtain ⟨h', found', hok', hsame', hmem'⟩ := (g'.performs request').asked hasks'
    refine ⟨h, h', hok, hok', ?_⟩
    -- The entry of the first node is still there when the second one is looked up.
    have hkept := (g'.performs request').shared_subset (shared_subset_after _ between hmem)
    rw [(hg'.performs (g'.performs request')).eq_iff hkept hmem']
    exact Key.same_congr hsame hsame'
  . intro shape hadds
    obtain ⟨h, hok, hnew, hhas, hshared⟩ := hperforms.added hadds
    refine ⟨h, hok, ?_, ?_⟩
    . intro before x after hearlier hanswer
      have hbefore : (empty.after before).Interned := interned_empty.after before
      have hreturned := ((empty.after before).performs x).answered hbefore hanswer
      have heq : g = ((empty.after before).perform x).2.after after := by
        unfold g
        rw [hearlier, after_append, after_cons]
      rw [heq] at hnew
      exact hnew ((evolves_after _ after).has h hreturned)
    . intro past future hhistory key hmem
      have hlast : (empty.after past).after future = g' := by
        rw [← after_append, ← hhistory, after_append, after_cons]
      have hmem' : (key, h) ∈ g'.shared := by
        rw [← hlast]
        exact shared_subset_after _ future hmem
      have hentry := mem_shared_of_mem_after hhas hmem'
      rw [hshared] at hentry
      exact hnew (hg.has hentry)

end Graph

end SchemaGraph
