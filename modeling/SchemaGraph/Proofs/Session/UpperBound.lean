import SchemaGraph.Proofs.Descent.Likeness
import SchemaGraph.Proofs.Descent.NormalForm
import SchemaGraph.Proofs.Session.OpenTypes
import SchemaGraph.Proofs.Unification.Cover

/-!
This module contains the proof that a unification is an upper bound: if none of the given types leads
to an open one, then the result accepts every value that one of them accepts, and it goes on to do so
whatever happens later. A map that the unification reads is complete then, so it keeps the values
that it was read with.
-/

namespace SchemaGraph

def State.JoinsOnly (P : Handle → Prop) (s : State) : Prop :=
  ∀ loc reads, .joined loc reads ∈ s.journal → ∀ read ∈ reads, P read.1

section

variable {P : Handle → Prop} {J : State → Prop} {E : Fault → State → Prop} {g g' : Graph}
  {s t : State} {M : Moments}

theorem Unification.Upkeep.joinsOnly (hJ : Unification.Upkeep P J E) :
    Unification.Upkeep P (fun t => J t ∧ t.JoinsOnly P) E where
  children ht := hJ.children ht.1
  share := by
    rintro t key hint ⟨ht, hjoins⟩ hkey hhint
    obtain ⟨hshared, hstate⟩ := hJ.share ht hkey hhint
    exact ⟨hshared, hstate, hjoins⟩
  record := by
    rintro t fields hint ⟨ht, hjoins⟩ hfields
    obtain ⟨hrecord, hstate⟩ := hJ.record hint ht hfields
    exact ⟨hrecord, hstate, hjoins⟩
  merged := by
    rintro t loc records ⟨ht, hjoins⟩
    refine ⟨hJ.merged ht, ?_⟩
    intro loc' reads hmem
    rcases List.mem_cons.1 hmem with heq | hmem
    . cases heq
    . exact hjoins loc' reads hmem
  joined := by
    rintro t loc reads ⟨ht, hjoins⟩ hreads
    refine ⟨hJ.joined ht hreads, ?_⟩
    intro loc' reads' hmem
    rcases List.mem_cons.1 hmem with heq | hmem
    . cases heq
      exact hreads
    . exact hjoins loc' reads' hmem
  clash ht := hJ.clash ht.1

theorem Graph.Evolves.valuesOf? {map values : Handle} (hg : g.Evolves g')
    (hcomplete : ¬g.Pending map) (hvalues : g.valuesOf? map = some values) :
    g'.valuesOf? map = some values := by
  unfold Graph.valuesOf? at hvalues ⊢
  split at hvalues
  . next hshape =>
    rw [hg.shape? hshape rfl]
    exact hvalues
  . next hshape => exact absurd ⟨_, hshape, rfl⟩ hcomplete
  . cases hvalues

theorem State.sifted_start (s : State) (hs : s.graph.Tabled) (T : Handle → Prop) :
    s.Sifted (fun _ => False) T [] s where
  document := rfl
  graph := .refl _
  tabled := hs
  fresh := nofun
  inside hnew hshape := absurd (Graph.has_of_shape? hshape) hnew
  memo hplace := hplace.elim

namespace Unification

open Effect

variable {types : List Handle} {hint : NameHint} {loc : Location} {r : Handle}

theorem run_unify_forgetful (htypes : types ≠ [])
    (hrun : (unify types hint loc).run s = (.ok r, t)) :
    ∃ t', (unify types hint loc).run { s with journal := [] } = (.ok r, t') ∧
      t'.graph = t.graph := by
  have hlike : s.Like True s.document s.document { s with journal := [] } :=
    ⟨rfl, rfl, .refl _, rfl, rfl, rfl⟩
  have habreast := pace_like.inPace_unify types hint hint loc s { s with journal := [] } htypes
    (fun _ => rfl) hlike
  unfold Abreast at habreast
  rw [hrun] at habreast
  generalize (unify types hint loc).run { s with journal := [] } = right at habreast ⊢
  cases habreast with
  | result h => exact ⟨_, rfl, (h.graph.eq trivial).symm⟩

theorem covers_of_clear (hsound : s.graph.Sound) (htabled : s.graph.Tabled)
    (hhas : ∀ h ∈ types, s.graph.Has h)
    (hclear : ∀ h ∈ types, s.graph.Clear (fun _ => False) h)
    (hrun : (unify types hint loc).run s = (.ok r, t)) :
    t.graph.Covers M (anyOf M types) r := by
  have htypes : types ≠ [] := by
    rintro rfl
    rw [run_unify_nil] at hrun
    cases hrun
  obtain ⟨t', hrun', hgraph⟩ := run_unify_forgetful htypes hrun
  let s' : State := { s with journal := [] }
  have hadded := (covering_unify M types hint loc s' hsound hhas).ok hrun'
  have hupkeep := (Descent.upkeep_unifying_sifted s' (fun _ => False) (fun _ => False) []).joinsOnly
  have hjoins := (hupkeep.upholds_unify (fun _ _ _ => trivial) types hint loc s' hclear
    ⟨s'.sifted_start htabled _, nofun⟩).ok hrun'
  rw [← hgraph]
  apply hadded.covers.mono
  intro g hg value hvalue
  refine ⟨?_, hvalue⟩
  intro loc' reads hmem _ map values hread
  obtain ⟨news, hnews, hevents⟩ := hadded.journal
  rw [hnews, List.append_nil] at hmem
  have hreads : t'.graph.Reads reads := hevents _ hmem
  have hclosed : ¬t'.graph.Pending map := by
    intro hpending
    have hold := hadded.graph.grows.pending (hadded.graph.pending map hpending) hpending
    exact hjoins.2.2 loc' reads (by rwa [hnews, List.append_nil]) (map, values) hread map .refl hold
  exact hg.valuesOf? hclosed (hreads map values hread)

end Unification

end

namespace Conversion

open Unification

theorem upper_bound_of_unify {document : Json} (hkeys : document.hasUniqueKeys = true)
    {steps : List SessionStep} (hsteps : (State.start document).Takes steps) {types : List Handle}
    (hint : NameHint) (loc : Location) {r : Handle} {t : State}
    (hhas : ∀ h ∈ types, ((State.start document).after steps).graph.Has h)
    (hcomplete : ∀ h ∈ types, ∀ k, ((State.start document).after steps).graph.Reaches h k →
      ¬((State.start document).after steps).graph.Pending k)
    (hrun : (unify types hint loc).run ((State.start document).after steps) = (.ok r, t))
    (M : Moments) {h : Handle} (hmem : h ∈ types) {value : Json}
    (haccepts : Accepts M ((State.start document).after steps).graph h value) :
    Accepts M t.graph r value ∧ ∀ later, Accepts M (t.after later).graph r value := by
  have hsound := ((State.valid_start document).after hkeys hsteps).sound
  have htabled := State.tabled_after document steps
  generalize (State.start document).after steps = s at hhas hcomplete hrun haccepts hsound htabled
  obtain ⟨hupheld, -⟩ := (spares_unify types hint loc s htabled).ok hrun
  have hcovers := covers_of_clear (M := M) hsound htabled hhas hcomplete hrun
  have hnow : Accepts M t.graph r value :=
    hcovers t.graph (.refl _) value ⟨h, hmem, haccepts.evolve hupheld.graph.evolves⟩
  refine ⟨hnow, fun later => ?_⟩
  obtain ⟨opened, hlater⟩ := State.upheld_after later hupheld.tabled
  exact hnow.evolve hlater.graph.evolves

def sizedDocument : Json :=
  .object [
    ("type", .string "object"),
    ("properties", .object [("size", .object [("type", .string "integer")])])]

def sizedSession : List SessionStep :=
  [.convert sizedDocument .root (.inferred "Sized"),
    .convert (.object [
      ("type", .string "object"),
      ("properties", .object [("name", .object [("type", .string "string")])])])
      (Location.root.child .items) (.inferred "Named")]

theorem accepts_sized (M : Moments) :
    Accepts M ((State.start sizedDocument).after sizedSession).graph ⟨0⟩
      (.object [("size", .integer 3)]) := by
  have hrecord : ((State.start sizedDocument).after sizedSession).graph.shape? ⟨0⟩ =
      some (.record (.filled [("size", ⟨2⟩)])) := by
    decide +kernel
  have hnullable : ((State.start sizedDocument).after sizedSession).graph.shape? ⟨2⟩ =
      some (.nullable ⟨1⟩) := by
    decide +kernel
  have hinteger : ((State.start sizedDocument).after sizedSession).graph.shape? ⟨1⟩ =
      some (.primitive .integer) := by
    decide +kernel
  refine accepts_of_fits hrecord ⟨_, rfl, ?_, ?_⟩
  . intro name value hmem
    cases List.mem_singleton.1 hmem
    exact ⟨⟨2⟩, List.mem_singleton_self _,
      accepts_of_fits hnullable (.inr (accepts_of_fits hinteger ⟨3, rfl⟩))⟩
  . intro name type hmem habsent
    cases List.mem_singleton.1 hmem
    exact absurd (List.mem_singleton_self _) habsent

theorem upper_bound_of_unify_sized :
    let s := (State.start sizedDocument).after sizedSession
    let t := ((unify [⟨0⟩, ⟨3⟩] (.inferred "Both") .root).run s).2
    (unify [⟨0⟩, ⟨3⟩] (.inferred "Both") .root).run s = (.ok ⟨6⟩, t) ∧
      ∀ M, Accepts M t.graph ⟨6⟩ (.object [("size", .integer 3)]) ∧
        ∀ later, Accepts M (t.after later).graph ⟨6⟩ (.object [("size", .integer 3)]) := by
  intro s t
  have hok : ((unify [⟨0⟩, ⟨3⟩] (.inferred "Both") .root).run s).1 = .ok ⟨6⟩ := by decide +kernel
  have hrun : (unify [⟨0⟩, ⟨3⟩] (.inferred "Both") .root).run s = (.ok ⟨6⟩, t) :=
    Effect.run_eq_of_ok hok
  have hsize : s.graph.size = 6 := by decide +kernel
  have hclosed : ∀ index < 6, (s.graph.shape? ⟨index⟩).any Shape.isOpen = false := by
    decide +kernel
  have hcomplete : ∀ k, ¬s.graph.Pending k := by
    rintro k hpending
    have hk : k.index < s.graph.size := hpending.has
    rw [hsize] at hk
    obtain ⟨shape, hshape, hopen⟩ := hpending
    have hindex := hclosed k.index hk
    rw [hshape, Option.any_some, hopen] at hindex
    cases hindex
  exact ⟨hrun, fun M => upper_bound_of_unify (by decide) (by decide +kernel) _ _
    (by decide +kernel) (fun _ _ k _ => hcomplete k) hrun M (List.mem_cons_self ..)
    (accepts_sized M)⟩

end Conversion

end SchemaGraph
