import SchemaGraph.Proofs.Descent.Addressing
import SchemaGraph.Proofs.Descent.Visits
import SchemaGraph.Proofs.Document.Locations

/-!
This module contains the proof that the descent ends. Every conversion that begins puts a mark on a
location of the document which did not have this mark, and the marks are only taken off when the
conversion is over. So there is room for no more conversions inside each other than there are marks,
and a descent that is allowed to nest deeper does nothing else.
-/

namespace SchemaGraph

theorem length_filter_not_mem_cons_lt {α : Type} [DecidableEq α] {as bs : List α} {a : α}
    (ha : a ∈ bs) (hfree : a ∉ as) :
    (bs.filter fun b => b ∉ a :: as).length < (bs.filter fun b => b ∉ as).length := by
  have hfilter : (bs.filter fun b => b ∉ a :: as) =
      (bs.filter fun b => b ∉ as).filter fun b => b ≠ a := by
    rw [List.filter_filter]
    congr 1
    funext b
    simp
  rw [hfilter, List.length_filter_lt_length_iff_exists]
  exact ⟨a, List.mem_filter.2 ⟨ha, by simpa using hfree⟩, by simp⟩

theorem length_le_mul_of_count_le {α : Type} [DecidableEq α] {as bs : List α} {n : Nat}
    (hmem : ∀ a ∈ as, a ∈ bs) (hcount : ∀ a, as.count a ≤ n) : as.length ≤ n * bs.length := by
  induction bs generalizing as with
  | nil =>
    cases as with
    | nil => exact Nat.zero_le _
    | cons a rest => cases hmem a (List.mem_cons_self ..)
  | cons b rest ih =>
    -- The copies of `b` are at most `n`, and what is left has its elements in `rest`.
    have hsplit : as.length = as.count b + (as.filter fun a => a ≠ b).length := by
      rw [List.length_eq_countP_add_countP (· == b), ← List.countP_eq_length_filter]
      congr 2
      funext a
      simp
    have hrest : (as.filter fun a => a ≠ b).length ≤ n * rest.length := by
      apply ih
      . intro a ha
        obtain ⟨ha, hne⟩ := List.mem_filter.1 ha
        rcases List.mem_cons.1 (hmem a ha) with rfl | h
        . simp at hne
        . exact h
      . intro a
        exact Nat.le_trans (List.filter_sublist.count_le a) (hcount a)
    have hb := hcount b
    rw [List.length_cons, Nat.mul_succ]
    omega

def State.room (document : Json) (s : State) : Nat :=
  (document.locations.filter fun loc => loc ∉ s.active).length +
    (document.locations.filter fun loc => loc ∉ s.reentered).length

namespace State

theorem room_start (document : Json) :
    (start document).room document = 2 * document.locations.length := by
  have hfilter : (document.locations.filter fun loc => loc ∉ ([] : List Location)) =
      document.locations := List.filter_eq_self.2 (by simp)
  unfold room start
  rw [hfilter, Nat.two_mul]

theorem room_begun_lt {document : Json} {place : Place} {s : State}
    (hplace : Addressed document place)
    (hfree : ¬(place.loc ∈ s.active ∧ place.loc ∈ s.reentered)) :
    (s.begun place).room document < s.room document := by
  have hmem := hplace.mem_locations
  unfold begun
  split
  . next hactive =>
    have hlt := length_filter_not_mem_cons_lt hmem (fun h => hfree ⟨hactive, h⟩)
    exact Nat.add_lt_add_left hlt _
  . next hactive =>
    have hlt := length_filter_not_mem_cons_lt hmem hactive
    exact Nat.add_lt_add_right hlt _

theorem room_of_frame {document : Json} {s t : State} (h : Frame s t) :
    t.room document = s.room document := by
  unfold room
  rw [h.active, h.reentered]

end State

namespace Descent

open Effect

def ending (document : Json) (depth : Nat) : Contract where
  pre place s := Addressed document place ∧ s.room document < depth
  post _ _ _ := True
  fault _ _ fault _ := ∀ loc, fault ≠ .endlessDescent loc

theorem ending_step {document : Json} (hkeys : document.hasUniqueKeys = true) (depth : Nat) :
    Contract.Step document (ending document depth) (ending document (depth + 1))
      (fun _ _ _ _ => True) (fun _ _ _ _ _ => True) where
  known _ _ := trivial
  third _ _ _ _ := by
    rintro _ ⟨⟩
  start _ := trivial
  graph _ _ := trivial
  merged _ := trivial
  joined _ := trivial
  record _ _ _ _ := trivial
  call := by
    intro place s todo t edge hs hframe hedge _
    obtain ⟨hplace, hroom⟩ := hs.pre
    refine ⟨hplace.next hkeys hedge, ?_⟩
    have hlt := State.room_begun_lt hplace hs.free
    rw [State.room_of_frame hframe]
    omega
  resume _ _ _ _ _ _ _ := trivial
  abort _ _ _ _ _ hfault := hfault
  ordinary _ _ _ hfault := by
    rintro loc rfl
    cases hfault
  finish _ _ _ _ := trivial

theorem ending_met {document : Json} (hkeys : document.hasUniqueKeys = true) {depth depth' : Nat}
    (hdepth : depth ≤ depth') :
    (ending document depth).Met document (convertWithin depth) (convertWithin depth') := by
  induction depth generalizing depth' with
  | zero =>
    rintro place hint s - - ⟨-, hroom⟩
    cases hroom
  | succ depth ih =>
    cases depth' with
    | zero => cases hdepth
    | succ depth' =>
      exact (ending_step hkeys depth).met hkeys (makes_true document)
        (ih (Nat.le_of_succ_le_succ hdepth)) (frame_met hkeys depth)

theorem alike_convertWithin {document : Json} (hkeys : document.hasUniqueKeys = true)
    (hint : NameHint) {depth : Nat} (hdepth : 2 * document.locations.length < depth) :
    Alike (convertWithin (2 * document.locations.length + 1) document .root hint)
      (convertWithin depth document .root hint) (fun _ _ => True)
      (fun fault _ => ∀ loc, fault ≠ .endlessDescent loc) (.start document) := by
  have hpre : (ending document (2 * document.locations.length + 1)).pre ⟨document, .root⟩
      (.start document) := by
    refine ⟨Addressed.root, ?_⟩
    rw [State.room_start]
    exact Nat.lt_succ_self _
  have hending := ending_met hkeys hdepth ⟨document, .root⟩ hint _ (State.valid_start document)
    hkeys hpre
  exact hending.mono (fun _ _ _ => trivial) (fun _ _ h => h.2)

end Descent

namespace Conversion

open Descent

variable {document : Json}

theorem run_eq (document : Json) (options : Options) :
    run document options =
      (convertWithin (depthBound document document) document .root
        (.inferred options.rootName)).run (.start document) := by
  unfold run convert
  rw [Effect.run_bind, Effect.run_state]
  unfold State.start
  dsimp only

theorem lt_depthBound (document : Json) :
    2 * document.locations.length < depthBound document document := by
  have hle := document.length_locations_le
  unfold depthBound
  omega

theorem run_ne_endlessDescent (hkeys : document.hasUniqueKeys = true) (options : Options)
    (loc : Location) : (run document options).1 ≠ .error (.endlessDescent loc) := by
  intro h
  have hrun := alike_convertWithin hkeys (.inferred options.rootName) (lt_depthBound document)
  rw [run_eq] at h
  rcases hend : (convertWithin (depthBound document document) document .root
    (.inferred options.rootName)).run (.start document) with ⟨fault | root, t⟩
  . rw [hend] at h
    cases h
    exact hrun.error (hrun.1.trans hend) loc rfl
  . rw [hend] at h
    cases h

theorem descent_ends (hkeys : document.hasUniqueKeys = true) (options : Options) :
    (∀ loc, (begunIn (run document options).2.journal).count loc ≤ 2) ∧
    (begunIn (run document options).2.journal).length ≤ 2 * document.locations.length ∧
    (∀ loc ∈ begunIn (run document options).2.journal, ∃ node, Addressed document ⟨node, loc⟩) ∧
    (∀ moment, moment <:+ (run document options).2.journal →
      (∀ loc, (underWay moment).count loc ≤ 2) ∧
        (underWay moment).length ≤ 2 * document.locations.length) ∧
    (∀ depth, 2 * document.locations.length < depth →
      (convertWithin depth document .root (.inferred options.rootName)).run (.start document) =
        run document options) ∧
    ∀ loc, (run document options).1 ≠ .error (.endlessDescent loc) := by
  have hcount := count_begunIn_le hkeys options
  have haddressed : ∀ loc ∈ begunIn (run document options).2.journal,
      ∃ node, Addressed document ⟨node, loc⟩ := by
    intro loc hloc
    obtain ⟨event, hevent, hbegun⟩ := List.mem_filterMap.1 hloc
    obtain ⟨node, hplace⟩ : ∃ node, event.place? = some ⟨node, loc⟩ := by
      cases event with
      | entered loc' node =>
        cases hbegun
        exact ⟨node, rfl⟩
      | reentered loc' node memo =>
        cases hbegun
        exact ⟨node, rfl⟩
      | _ => cases hbegun
    exact ⟨node, located_run hkeys options event hevent _ hplace⟩
  have hlength : (begunIn (run document options).2.journal).length ≤
      2 * document.locations.length := by
    apply length_le_mul_of_count_le _ hcount
    intro loc hloc
    exact (Json.mem_locations_iff hkeys).2 (haddressed loc hloc)
  refine ⟨hcount, hlength, haddressed, ?_, ?_, ?_⟩
  . intro moment hmoment
    have hsublist := (underWay_sublist moment).trans (begunIn_sublist hmoment)
    exact ⟨fun loc => Nat.le_trans (hsublist.count_le loc) (hcount loc),
      Nat.le_trans hsublist.length_le hlength⟩
  . intro depth hdepth
    have hdeep := alike_convertWithin hkeys (.inferred options.rootName) hdepth
    have hrun := alike_convertWithin hkeys (.inferred options.rootName) (lt_depthBound document)
    rw [run_eq, ← hrun.1, hdeep.1]
  . exact fun loc => run_ne_endlessDescent hkeys options loc

def loopDocument : Json :=
  .object [("$ref", .string "#")]

theorem descent_ends_loop :
    loopDocument.hasUniqueKeys = true ∧ loopDocument.locations = [.root] ∧
      begunIn (run loopDocument {}).2.journal = [.root, .root] ∧
      (begunIn (run loopDocument {}).2.journal).length ≤ 2 * loopDocument.locations.length := by
  have hkeys : loopDocument.hasUniqueKeys = true := by decide
  exact ⟨hkeys, by decide, by decide, (descent_ends hkeys {}).2.1⟩

end Conversion

end SchemaGraph
