import SchemaGraph.Proofs.Graph.Assignment
import SchemaGraph.Proofs.Graph.Chains
import SchemaGraph.Proofs.Session.Faults
import SchemaGraph.Proofs.Session.Nesting

/-!
This module contains the proof that the unification of finite types ends, and that it nests no
deeper than these types do. A unification adds nodes to the graph that it reads, and it is nested in
others together with types from elsewhere. But whatever a nested unification is given stood below
the first types before, as many steps inside as the unification is nested deep.
-/

namespace SchemaGraph

namespace Graph

def Inside (g : Graph) (types : List Handle) (n : Nat) (k : Handle) : Prop :=
  ∃ h ∈ types, g.Chain h n k

variable {g g' : Graph} {types inner : List Handle} {n : Nat}

theorem Sound.exists_chain_of_mem_leaves (hg : g.Sound) (hhas : ∀ h ∈ types, g.Has h)
    (hgrows : g.Grows g') (hinner : ∀ k ∈ inner, g.Inside types n k) {leaf : Leaf}
    (hleaf : leaf ∈ g'.leaves inner) :
    ∃ h ∈ types, ∃ k, g.Chain h n k ∧ g.Offers k leaf.1 ∧ g.shape? leaf.1 = some leaf.2 := by
  obtain ⟨k, hk, hopened⟩ := List.mem_flatMap.1 hleaf
  obtain ⟨h, hmem, hchain⟩ := hinner k hk
  have hhask := hg.has_of_reaches (hhas h hmem) hchain.reaches
  have hoffers := (hgrows.offers_iff hg hhask).1 (offers_of_mem_opened hopened)
  refine ⟨h, hmem, k, hchain, hoffers, ?_⟩
  rw [← hgrows.shape?_eq (hg.has_of_reaches hhask hoffers.reaches)]
  exact (shape?_of_mem_leaves hleaf).1

theorem Sound.inside_contents (hg : g.Sound) (hhas : ∀ h ∈ types, g.Has h)
    (hgrows : g.Grows g') (hinner : ∀ k ∈ inner, g.Inside types n k) :
    ∀ leaf ∈ g'.leaves inner, ∀ k ∈ leaf.2.contents, g.Inside types (n + 1) k := by
  intro leaf hleaf k hmem
  obtain ⟨h, hh, _, hchain, hoffers, hshape⟩ :=
    hg.exists_chain_of_mem_leaves hhas hgrows hinner hleaf
  exact ⟨h, hh, .step hchain hoffers hshape hmem⟩

theorem Sound.not_open_of_finite (hg : g.Sound) (hhas : ∀ h ∈ types, g.Has h)
    (hfinite : ∀ h ∈ types, g.Finite h) (hgrows : g.Grows g')
    (hinner : ∀ k ∈ inner, g.Inside types n k) (map : Handle) :
    (map, .map .pending) ∉ g'.leaves inner := by
  intro hleaf
  obtain ⟨h, hh, _, hchain, hoffers, hshape⟩ :=
    hg.exists_chain_of_mem_leaves hhas hgrows hinner hleaf
  exact (hfinite h hh).complete (hchain.reaches.trans hoffers.reaches) hshape

end Graph

namespace Unification

open Effect

variable {E : Fault → State → Prop} {s t : State} {types inner : List Handle} {n : Nat}

theorem upkeep_grows (s : State) (hE : ∀ fault t, fault.isClash = true → E fault t) :
    Upkeep (fun _ => True) (fun t => s.graph.Grows t.graph) E where
  children _ _ _ _ _ := trivial
  share ht _ _ := ⟨trivial, ht.trans (Graph.grows_share _ _ _ _)⟩
  record _ ht _ := ⟨trivial, ht.trans (Graph.grows_push _ _)⟩
  merged ht := ht
  joined ht _ := ht
  clash _ hfault := hE _ _ hfault

theorem alike_unifyWithin_inside (hg : s.graph.Sound) (hhas : ∀ h ∈ types, s.graph.Has h)
    (hfinite : ∀ h ∈ types, s.graph.Finite h) {longest : Nat}
    (hlongest : ∀ h ∈ types, ∀ m k, s.graph.Chain h m k → m ≤ longest) {depth depth' : Nat}
    (hdepth : longest < n + depth) (hdepth' : longest < n + depth') :
    UpholdsOn (s.graph.Inside types n) (fun _ => True) (fun t => s.graph.Grows t.graph)
      (fun fault _ => ∀ loc, fault ≠ .endlessUnification loc)
      (unifyWithin depth) (unifyWithin depth') := by
  -- Below the longest chain there is nothing left to nest.
  induction depth generalizing n depth' with
  | zero =>
    intro inner hint loc t hinner ht
    cases inner with
    | nil =>
      simp only [unifyWithin]
      exact alike_fail fun loc heq => by cases heq
    | cons k rest =>
      cases rest with
      | nil =>
        simp only [unifyWithin]
        exact alike_pure ⟨trivial, ht⟩
      | cons l rest =>
        obtain ⟨h, hmem, hchain⟩ := hinner k (List.mem_cons_self ..)
        have hle := hlongest h hmem n k hchain
        omega
  | succ depth ih =>
    intro inner hint loc t hinner ht
    cases inner with
    | nil =>
      simp only [unifyWithin]
      exact alike_fail fun loc heq => by cases heq
    | cons k rest =>
      cases rest with
      | nil =>
        simp only [unifyWithin]
        exact alike_pure ⟨trivial, ht⟩
      | cons l rest =>
        cases depth' with
        | zero =>
          obtain ⟨h, hmem, hchain⟩ := hinner k (List.mem_cons_self ..)
          have hle := hlongest h hmem n k hchain
          omega
        | succ depth' =>
          have hupkeep := upkeep_grows (E := fun fault _ => ∀ loc, fault ≠ .endlessUnification loc)
            s (by rintro fault - hclash loc rfl; cases hclash)
          simp only [unifyWithin]
          apply alike_state_bind
          exact hupkeep.alike_combine_inside (ih (by omega) (by omega)) (fun _ _ => trivial)
            (hg.inside_contents hhas ht hinner)
            (fun map hopen => absurd hopen (hg.not_open_of_finite hhas hfinite ht hinner map)) hint
            loc ht

end Unification

namespace Call

open Effect Unification

inductive NestedAt (a : State × Call) : Nat → State × Call → Prop where
  | itself : NestedAt a 0 a
  | deeper {n : Nat} {b c : State × Call} (hnested : NestedAt a n b) (hmakes : Makes b c) :
    NestedAt a (n + 1) c

def IsInside (s : State) (types : List Handle) (n : Nat) (a : State × Call) : Prop :=
  s.graph.Grows a.1.graph ∧ ∃ depth inner hint loc,
    a.2 = .unify depth inner hint loc ∧ ∀ k ∈ inner, s.graph.Inside types n k

variable {s t : State} {types inner : List Handle} {n : Nat} {a b : State × Call}

theorem NestedAt.nested (h : NestedAt a n b) : Relation.ReflTransGen Makes a b := by
  induction h with
  | itself => exact .refl
  | deeper _ hmakes ih => exact ih.tail hmakes

theorem IsInside.makes (hg : s.graph.Sound) (hhas : ∀ h ∈ types, s.graph.Has h)
    (hfinite : ∀ h ∈ types, s.graph.Finite h) (ha : IsInside s types n a) (h : Makes a b) :
    IsInside s types (n + 1) b := by
  obtain ⟨ask, hask, hdiffers⟩ := h
  apply Classical.byContradiction
  intro hb
  apply hdiffers
  obtain ⟨t, c⟩ := a
  obtain ⟨ht, depth, inner, hint, loc, rfl, hinner⟩ := ha
  match depth, inner with
  | 0, [] => rfl
  | _ + 1, [] => rfl
  | 0, [_] => rfl
  | _ + 1, [_] => rfl
  | 0, _ :: _ :: _ => rfl
  | depth + 1, k :: l :: rest =>
    have hupkeep := upkeep_grows (E := fun _ _ => True) s fun _ _ _ => trivial
    have hunify : UpholdsOn (s.graph.Inside types (n + 1)) (fun _ => True)
        (fun t => s.graph.Grows t.graph) (fun _ _ => True) (unifyingWithin ask depth)
        (unifyWithin depth) := by
      intro inner' hint' loc' u hinner' hu
      have hne : (u, unify depth inner' hint' loc') ≠ b := by
        rintro rfl
        exact hb ⟨hu, depth, inner', hint', loc', rfl, hinner'⟩
      have hanswer : (unifyingWithin ask depth inner' hint' loc').run u = _ := hask u _ hne
      refine ⟨hanswer, ?_⟩
      rw [hanswer]
      exact (hupkeep.upholds_unifyWithin (fun _ _ _ => trivial) depth inner' hint' loc' u
        (fun _ _ => trivial) hu).2
    exact (alike_state_bind (hupkeep.alike_combine_inside hunify (fun _ _ => trivial)
      (hg.inside_contents hhas ht hinner)
      (fun map hopen => absurd hopen (hg.not_open_of_finite hhas hfinite ht hinner map)) hint loc
      ht)).1

theorem NestedAt.isInside (hg : s.graph.Sound) (hhas : ∀ h ∈ types, s.graph.Has h)
    (hfinite : ∀ h ∈ types, s.graph.Finite h) {depth : Nat} {hint : NameHint} {loc : Location}
    (h : NestedAt (s, .unify depth types hint loc) n b) : IsInside s types n b := by
  induction h with
  | itself => exact ⟨.refl _, depth, types, hint, loc, rfl, fun k hk => ⟨k, hk, .start⟩⟩
  | deeper _ hmakes ih => exact ih.makes hg hhas hfinite hmakes

theorem NestedAt.eq_zero {depth : Nat} {hint : NameHint} {loc : Location}
    (h : NestedAt (s, .unify depth [] hint loc) n b) : n = 0 := by
  have hself : n = 0 ∧ b = (s, .unify depth [] hint loc) := by
    induction h with
    | itself => exact ⟨rfl, rfl⟩
    | deeper _ hmakes ih =>
      obtain ⟨-, rfl⟩ := ih
      cases makes_iff_encloses.1 hmakes with
      | unification hseveral _ _ _ => cases hseveral
  exact hself.1

end Call

namespace Conversion

open Unification

theorem unification_ends {document : Json} (hkeys : document.hasUniqueKeys = true)
    {steps : List SessionStep} (hsteps : (State.start document).Takes steps) {types : List Handle}
    (hhas : ∀ h ∈ types, ((State.start document).after steps).graph.Has h)
    (hfinite : ∀ h ∈ types, ((State.start document).after steps).graph.Finite h) (hint : NameHint)
    (loc : Location) :
    let s := (State.start document).after steps
    (∀ loc', ((unify types hint loc).run s).1 ≠ .error (.endlessUnification loc')) ∧
    (∀ h ∈ types, ∀ n k, s.graph.Chain h n k → n ≤ s.graph.size) ∧
    ∀ longest, (∀ h ∈ types, ∀ n k, s.graph.Chain h n k → n ≤ longest) →
      (∀ depth, longest < depth →
        (unifyWithin depth types hint loc).run s = (unify types hint loc).run s) ∧
      ∀ n b, Call.NestedAt (s, .unify s.graph.unificationBound types hint loc) n b →
        n ≤ longest ∧ ∃ depth inner hint' loc', b.2 = .unify depth inner hint' loc' ∧
          ∀ k ∈ inner, ∃ h ∈ types, s.graph.Chain h n k := by
  intro s
  have hsound : s.graph.Sound := ((State.valid_start document).after hkeys hsteps).sound
  have hinside : ∀ k ∈ types, s.graph.Inside types 0 k := fun k hk => ⟨k, hk, .start⟩
  have hchains : ∀ h ∈ types, ∀ n k, s.graph.Chain h n k → n ≤ s.graph.size :=
    fun h hmem n k hchain => (hfinite h hmem).chain_le hsound hchain
  have hbound : s.graph.size < 0 + s.graph.unificationBound := by
    rw [Nat.zero_add]
    exact s.graph.size_lt_unificationBound
  refine ⟨?_, hchains, ?_⟩
  . intro loc' hfault
    rw [Call.run_unify] at hfault
    have halike := alike_unifyWithin_inside hsound hhas hfinite hchains hbound hbound types hint loc
      s hinside (.refl _)
    exact halike.error (Prod.ext hfault rfl) loc' rfl
  . intro longest hlongest
    constructor
    . intro depth hdepth
      -- The longest chain may be taken to be no longer than the graph has nodes.
      have hshort : ∀ h ∈ types, ∀ n k, s.graph.Chain h n k → n ≤ min longest s.graph.size :=
        fun h hmem n k hchain => le_min (hlongest h hmem n k hchain) (hchains h hmem n k hchain)
      rw [Call.run_unify]
      exact (alike_unifyWithin_inside hsound hhas hfinite hshort (by omega) (by omega) types hint
        loc s hinside (.refl _)).1
    . intro n b hnested
      obtain ⟨-, depth, inner, hint', loc', hb, hinner⟩ := hnested.isInside hsound hhas hfinite
      refine ⟨?_, depth, inner, hint', loc', hb, hinner⟩
      by_cases htypes : types = []
      . subst htypes
        rw [hnested.eq_zero]
        exact Nat.zero_le _
      . have hunifies : b.2.Unifies :=
          Call.Unifies.nested (a := (s, .unify s.graph.unificationBound types hint loc)) htypes
            hnested.nested
        rw [hb] at hunifies
        obtain ⟨k, hk⟩ := List.exists_mem_of_ne_nil inner hunifies
        obtain ⟨h, hmem, hchain⟩ := hinner k hk
        exact hlongest h hmem n k hchain

def shelvedDocument : Json :=
  .object [
    ("type", .string "object"),
    ("additionalProperties", .object [
      ("type", .string "array"),
      ("items", .object [("type", .string "integer")])])]

def shelvedSession : List SessionStep :=
  [.convert shelvedDocument .root (.inferred "Numbers"),
    .convert (.object [
      ("type", .string "object"),
      ("additionalProperties", .object [
        ("type", .string "array"),
        ("items", .object [
          ("type", .string "object"),
          ("properties", .object [("size", .object [("type", .string "integer")])])])])])
      (Location.root.child .items) (.inferred "Records")]

theorem finite_shelved (h : Handle) :
    ((State.start shelvedDocument).after shelvedSession).graph.Finite h := by
  have hsize : ((State.start shelvedDocument).after shelvedSession).graph.size = 7 := by
    decide +kernel
  have hopen : ∀ index < 7,
      ((State.start shelvedDocument).after shelvedSession).graph.shape? ⟨index⟩ ≠
        some (.map .pending) := by
    decide +kernel
  -- The maps and the record are older than what is inside them.
  let rank : Handle → Nat := fun h => [2, 0, 1, 4, 2, 1, 3].getD h.index 0
  have hranks : ∀ index < 7, ∀ k ∈
      ((State.start shelvedDocument).after shelvedSession).graph.children ⟨index⟩,
      rank k < rank ⟨index⟩ := by
    decide +kernel
  generalize ((State.start shelvedDocument).after shelvedSession).graph = g at *
  constructor
  . intro k _ hshape
    have hk : k.index < g.size := Graph.has_of_shape? hshape
    exact hopen k.index (by omega) hshape
  . intro k _ _ _ _
    apply Graph.not_cyclic_of_rank rank
    intro k l hchild
    obtain ⟨_, hshape, -⟩ := Graph.exists_of_refers hchild
    have hk : k.index < g.size := Graph.has_of_shape? hshape
    exact hranks k.index (by omega) l hchild

theorem unification_ends_shelved :
    let s := (State.start shelvedDocument).after shelvedSession
    (∀ loc, ((unify [⟨0⟩, ⟨3⟩] (.inferred "Both") .root).run s).1 ≠
      .error (.endlessUnification loc)) ∧
    (∀ depth > s.graph.size, (unifyWithin depth [⟨0⟩, ⟨3⟩] (.inferred "Both") .root).run s =
      (unify [⟨0⟩, ⟨3⟩] (.inferred "Both") .root).run s) ∧
    ∀ n b, Call.NestedAt
      (s, .unify s.graph.unificationBound [⟨0⟩, ⟨3⟩] (.inferred "Both") .root) n b →
        n ≤ s.graph.size := by
  intro s
  obtain ⟨hends, hchains, hlongest⟩ :=
    @unification_ends shelvedDocument (by decide) shelvedSession (by decide +kernel) [⟨0⟩, ⟨3⟩]
      (by decide +kernel) (fun h _ => finite_shelved h) (.inferred "Both") .root
  obtain ⟨hdepth, hnested⟩ := hlongest s.graph.size hchains
  exact ⟨hends, hdepth, fun n b h => (hnested n b h).1⟩

end Conversion

end SchemaGraph
