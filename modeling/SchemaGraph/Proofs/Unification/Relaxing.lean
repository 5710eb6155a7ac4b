import SchemaGraph.Proofs.Document.Locations
import SchemaGraph.Proofs.Document.Relaxing
import SchemaGraph.Proofs.Graph.Growth
import SchemaGraph.Proofs.Unification.Leaves

/-!
This module contains effects that do the same in a state and in the state with `oneOf` renamed to
`anyOf`. The graph is the same in both, so a unification makes the same nodes in the same order. It
uses its location for faults and for the journal only.
-/

namespace SchemaGraph

def relaxedMemo (memo : Entries Location Handle) : Entries Location Handle :=
  memo.map fun entry => (entry.1.relaxed, entry.2)

def Event.relaxed : Event → Event
  | .requested loc node => .requested loc.relaxed node.relaxed
  | .entered loc node => .entered loc.relaxed node.relaxed
  | .reentered loc node memo => .reentered loc.relaxed node.relaxed (relaxedMemo memo)
  | .left loc => .left loc.relaxed
  | .merged loc records => .merged loc.relaxed records
  | .joined loc reads => .joined loc.relaxed reads
  | .recorded loc type => .recorded loc.relaxed type

def State.relaxed (s : State) : State where
  document := s.document.relaxed
  graph := s.graph
  memo := relaxedMemo s.memo
  active := s.active.map Location.relaxed
  reentered := s.reentered.map Location.relaxed
  journal := s.journal.map Event.relaxed

structure State.Located (document : Json) (s : State) : Prop where
  memo : s.memo.keys ⊆ document.locations
  active : s.active ⊆ document.locations
  reentered : s.reentered ⊆ document.locations
  document : s.document = document

namespace Effect

variable {α β γ : Type}

/--
The second effect does from the renamed state what the first one does from `s`, with the renaming
carried out on the fault and on the state that it ends in.
-/
structure Relaxes (document : Json) (e e' : Effect α) (s : State) : Prop where
  run : e'.run s.relaxed = ((e.run s).1.mapError Fault.relaxed, (e.run s).2.relaxed)
  located : (e.run s).2.Located document

variable {document : Json} {s : State} {e e' : Effect α} {f f' : α → Effect β}

theorem relaxes_pure (a : α) (hs : s.Located document) : Relaxes document (pure a) (pure a) s :=
  ⟨rfl, hs⟩

theorem relaxes_fail (fault : Fault) (hs : s.Located document) :
    Relaxes document (fail fault : Effect α) (fail fault.relaxed) s :=
  ⟨rfl, hs⟩

theorem relaxes_build (make : Graph → Handle × Graph) (hs : s.Located document) :
    Relaxes document (build make) (build make) s :=
  ⟨rfl, ⟨hs.memo, hs.active, hs.reentered, hs.document⟩⟩

theorem Relaxes.next (h : Relaxes document e e' s)
    (hnext : ∀ a t, t.Located document → Relaxes document (f a) (f' a) t) :
    Relaxes document (e >>= f) (e' >>= f') s := by
  obtain ⟨hrun, hlocated⟩ := h
  constructor
  . rw [run_bind, run_bind, hrun]
    generalize e.run s = outcome at hlocated ⊢
    rcases outcome with ⟨fault | a, t⟩
    . rfl
    . exact (hnext a t hlocated).run
  . rw [run_bind]
    generalize e.run s = outcome at hlocated ⊢
    rcases outcome with ⟨fault | a, t⟩
    . exact hlocated
    . exact (hnext a t hlocated).located

theorem relaxes_check_bind {r : α → γ} {f' : γ → Effect β} {result : Except Fault α}
    (hs : s.Located document)
    (hnext : ∀ a, result = .ok a → Relaxes document (f a) (f' (r a)) s) :
    Relaxes document (check result >>= f) (check (relaxing r result) >>= f') s := by
  cases result with
  | error fault => exact ⟨rfl, hs⟩
  | ok a => exact hnext a rfl

theorem relaxes_state_bind {f f' : State → Effect β} (h : Relaxes document (f s) (f' s.relaxed) s) :
    Relaxes document (state >>= f) (state >>= f') s :=
  ⟨h.run, h.located⟩

theorem relaxes_change_bind {f f' : Unit → Effect β} {g g' : State → State}
    (hchange : g' s.relaxed = (g s).relaxed) (h : Relaxes document (f ()) (f' ()) (g s)) :
    Relaxes document (change g >>= f) (change g' >>= f') s := by
  have hrun : (change g' >>= f').run s.relaxed = (f' ()).run (g s).relaxed := by
    rw [← hchange]
    rfl
  exact ⟨hrun.trans h.run, h.located⟩

theorem relaxes_note_bind {f f' : Unit → Effect β} {event : Event}
    (h : Relaxes document (f ()) (f' ()) { s with journal := event :: s.journal }) :
    Relaxes document (note event >>= f) (note event.relaxed >>= f') s :=
  relaxes_change_bind rfl h

theorem relaxes_collect {ι : Type} (f f' : ι → Effect α) (is : List ι)
    (hf : ∀ i ∈ is, ∀ t, t.Located document → Relaxes document (f i) (f' i) t)
    (hs : s.Located document) :
    Relaxes document (collect (is.map f)) (collect (is.map f')) s := by
  induction is generalizing s with
  | nil => exact relaxes_pure [] hs
  | cons i rest ih =>
    apply (hf i (List.mem_cons_self ..) s hs).next
    intro a t ht
    apply (ih (fun j hj => hf j (List.mem_cons_of_mem _ hj)) ht).next
    intro as u hu
    exact relaxes_pure _ hu

theorem relaxes_single {e e' : Effect Handle} (h : Relaxes document e e' s) :
    Relaxes document (collect [e]) (collect [e']) s := by
  apply h.next
  intro a t ht
  exact relaxes_pure _ ht

end Effect

theorem State.Located.note {document : Json} {s : State} (hs : s.Located document)
    (event : Event) : State.Located document { s with journal := event :: s.journal } :=
  ⟨hs.memo, hs.active, hs.reentered, hs.document⟩

namespace Unification

open Effect

def Relaxable (document : Json) (unify : Unify) : Prop :=
  ∀ types hint loc s, s.Located document →
    Relaxes document (unify types hint loc) (unify types hint loc.relaxed) s

variable {document : Json} {s : State} {unify : Unify}

theorem relaxes_primitives (leaves : List Leaf) (kinds : List Primitive)
    (hs : s.Located document) :
    Relaxes document (primitives leaves kinds) (primitives leaves kinds) s :=
  relaxes_collect _ _ _ (fun _ _ _ ht => relaxes_build _ ht) hs

theorem relaxes_joinStrings (leaves : List Leaf) (hint : NameHint) (hs : s.Located document) :
    Relaxes document (joinStrings leaves hint) (joinStrings leaves hint) s := by
  unfold joinStrings
  split
  . exact relaxes_single (relaxes_build _ hs)
  . exact relaxes_pure _ hs

theorem relaxes_joinEnums (enums : List (List String)) (hint : NameHint)
    (hs : s.Located document) :
    Relaxes document (joinEnums enums hint) (joinEnums enums hint) s := by
  unfold joinEnums
  split
  . exact relaxes_pure _ hs
  . exact relaxes_single (relaxes_build _ hs)

theorem relaxes_joinArrays (hunify : Relaxable document unify) (items : List Handle)
    (hint : NameHint) (loc : Location) (hs : s.Located document) :
    Relaxes document (joinArrays unify items hint loc) (joinArrays unify items hint loc.relaxed)
      s := by
  unfold joinArrays
  split
  . exact relaxes_pure _ hs
  . have hitems := hunify items hint.singular (loc.child .items) s hs
    rw [Location.relaxed_child] at hitems
    apply hitems.next
    intro joined t ht
    exact relaxes_single (relaxes_build _ ht)

theorem relaxes_joinMaps (hunify : Relaxable document unify) (maps : List Handle)
    (hint : NameHint) (loc : Location) (hs : s.Located document) :
    Relaxes document (joinMaps unify maps hint loc) (joinMaps unify maps hint loc.relaxed) s := by
  unfold joinMaps
  split
  . exact relaxes_pure _ hs
  . exact relaxes_pure _ hs
  . apply relaxes_state_bind
    apply relaxes_note_bind
    have hvalues := hunify ((s.graph.valuesRead maps).map Prod.snd) hint.singular
      (loc.child .additionalProperties) _ (hs.note (.joined loc (s.graph.valuesRead maps)))
    rw [Location.relaxed_child] at hvalues
    apply hvalues.next
    intro joined t ht
    exact relaxes_single (relaxes_build _ ht)

theorem relaxes_mergeGathered (hunify : Relaxable document unify) (count : Nat) (loc : Location)
    (found : Entries String (List Handle)) (hs : s.Located document) :
    Relaxes document (RecordMerge.mergeGathered (unifier unify) count loc found)
      (RecordMerge.mergeGathered (unifier unify) count loc.relaxed found) s := by
  induction found generalizing s with
  | nil => exact relaxes_pure [] hs
  | cons entry rest ih =>
    obtain ⟨name, types⟩ := entry
    have hrest : ∀ type t, t.Located document →
        Relaxes document (RecordMerge.mergeGathered (unifier unify) count loc rest >>= fun fields =>
            pure ((name, type) :: fields))
          (RecordMerge.mergeGathered (unifier unify) count loc.relaxed rest >>= fun fields =>
            pure ((name, type) :: fields)) t := by
      intro type t ht
      apply (ih ht).next
      intro fields u hu
      exact relaxes_pure _ hu
    have htypes := hunify types (.inferred name) (loc.child (.property name)) s hs
    rw [Location.relaxed_child] at htypes
    unfold RecordMerge.mergeGathered
    apply htypes.next
    intro joined t ht
    dsimp only
    split
    . exact (relaxes_build (fun g => g.addNullable joined (.inferred name)) ht).next hrest
    . rw [pure_bind, pure_bind]
      exact hrest joined t ht

theorem filledFields_relaxed (g : Graph) (loc : Location) (records : List Handle) :
    filledFields g loc.relaxed records = relaxing id (filledFields g loc records) := by
  induction records with
  | nil => rfl
  | cons record rest ih =>
    unfold filledFields
    rw [ih]
    split
    . cases filledFields g loc rest with
      | error fault => rfl
      | ok all => rfl
    . rfl

theorem relaxes_joinRecords (hunify : Relaxable document unify) (records : List Handle)
    (hint : NameHint) (loc : Location) (hs : s.Located document) :
    Relaxes document (joinRecords unify records hint loc)
      (joinRecords unify records hint loc.relaxed) s := by
  unfold joinRecords
  split
  . exact relaxes_pure _ hs
  . exact relaxes_pure _ hs
  . apply relaxes_state_bind
    dsimp only [State.relaxed]
    rw [filledFields_relaxed]
    apply relaxes_check_bind hs
    intro all _
    apply relaxes_note_bind
    apply (relaxes_mergeGathered hunify _ loc _ (hs.note _)).next
    intro fields t ht
    exact relaxes_single (relaxes_build _ ht)

theorem relaxes_otherMembers (hunify : Relaxable document unify) (leaves : List Leaf)
    (hint : NameHint) (loc : Location) (object : List Handle) (hs : s.Located document) :
    Relaxes document (otherMembers unify leaves hint loc object)
      (otherMembers unify leaves hint loc.relaxed object) s := by
  unfold otherMembers
  apply (relaxes_primitives leaves _ hs).next
  intro scalars t ht
  apply (relaxes_joinStrings leaves hint ht).next
  intro strings t ht
  apply (relaxes_primitives leaves _ ht).next
  intro moments t ht
  apply (relaxes_joinEnums _ hint ht).next
  intro enums t ht
  apply (relaxes_joinArrays hunify _ hint loc ht).next
  intro arrays t ht
  exact relaxes_pure _ ht

theorem relaxes_members (hunify : Relaxable document unify) (leaves : List Leaf) (hint : NameHint)
    (loc : Location) (hs : s.Located document) :
    Relaxes document (members unify leaves hint loc) (members unify leaves hint loc.relaxed) s := by
  rw [members_eq, members_eq]
  split
  . apply (relaxes_joinRecords hunify _ hint loc hs).next
    intro object t ht
    exact relaxes_otherMembers hunify _ hint loc object ht
  . apply (relaxes_joinMaps hunify _ hint loc hs).next
    intro object t ht
    exact relaxes_otherMembers hunify _ hint loc object ht

theorem relaxes_package (found : List Handle) (withNull : Bool) (hint : NameHint)
    (hs : s.Located document) :
    Relaxes document (package found withNull hint) (package found withNull hint) s := by
  have hnull : ∀ core t, t.Located document →
      Relaxes document (if withNull then build fun g => g.addNullable core hint else pure core)
        (if withNull then build fun g => g.addNullable core hint else pure core) t := by
    intro core t ht
    split
    . exact relaxes_build _ ht
    . exact relaxes_pure core ht
  unfold package
  split
  . exact relaxes_build _ hs
  . dsimp only
    split
    . rw [pure_bind]
      exact hnull _ _ hs
    . exact (relaxes_build _ hs).next hnull

theorem relaxes_combine (hunify : Relaxable document unify) (leaves : List Leaf) (hint : NameHint)
    (loc : Location) (hs : s.Located document) :
    Relaxes document (combine unify leaves hint loc) (combine unify leaves hint loc.relaxed) s := by
  unfold combine
  split
  . exact relaxes_fail _ hs
  . split
    . exact relaxes_build _ hs
    . apply (relaxes_members hunify leaves hint loc hs).next
      intro found t ht
      exact relaxes_package found _ hint ht

theorem relaxable_unifyWithin (document : Json) (depth : Nat) :
    Relaxable document (unifyWithin depth) := by
  induction depth with
  | zero =>
    intro types hint loc s hs
    match types with
    | [] => exact relaxes_fail _ hs
    | [h] => exact relaxes_pure h hs
    | _ :: _ :: _ => exact relaxes_fail _ hs
  | succ depth ih =>
    intro types hint loc s hs
    match types with
    | [] => exact relaxes_fail _ hs
    | [h] => exact relaxes_pure h hs
    | h :: k :: rest =>
      simp only [unifyWithin]
      apply relaxes_state_bind
      exact relaxes_combine ih _ hint loc hs

theorem relaxable_unify (document : Json) : Relaxable document Unification.unify := by
  intro types hint loc s hs
  unfold Unification.unify
  apply relaxes_state_bind
  exact relaxable_unifyWithin document _ types hint loc s hs

end Unification

end SchemaGraph
