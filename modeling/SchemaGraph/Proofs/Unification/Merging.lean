import SchemaGraph.Proofs.Unification.Gathering
import SchemaGraph.Proofs.Unification.Growth

/-!
This module contains the proof that the merge of several records covers each of them. The merged
record has a field for every field of theirs, whose type covers the types of the field and is
nullable when one of the records lacks it.
-/

namespace SchemaGraph

namespace Unification

open Effect

structure MergedField (M : Moments) (loc : Location) (count : Nat) (types : List Handle)
    (type : Handle) (t : State) : Prop where
  has : t.graph.Has type
  covers : t.graph.Covers M (fun g value => t.Foresees loc g ∧ anyOf M types g value) type
  null : types.length < count →
    t.graph.Covers M (fun g value => t.Foresees loc g ∧ value = .null) type

structure MergedFields (M : Moments) (loc : Location) (count : Nat)
    (found : Entries String (List Handle)) (s : State) (fields : Fields) (t : State) : Prop
    extends s.Grown t where
  keys : Entries.keys fields = found.keys
  field {name type} : (name, type) ∈ fields →
    ∃ types, (name, types) ∈ found ∧ MergedField M loc count types type t

section

variable {M : Moments} {s t u : State} {loc : Location} {count : Nat} {unify : Unify}

theorem MergedField.grow {types : List Handle} {type : Handle}
    (h : MergedField M loc count types type t) (htu : t.Grown u) :
    MergedField M loc count types type u where
  has := htu.evolves.has type h.has
  covers := State.Foresees.covers h.covers htu.evolves htu.suffix
  null hlt := State.Foresees.covers (h.null hlt) htu.evolves htu.suffix

theorem MergedFields.cons {rest : Entries String (List Handle)} {name : String}
    {types : List Handle} {type : Handle} {fields : Fields} (hst : s.Grown t)
    (htype : MergedField M loc count types type t) (h : MergedFields M loc count rest t fields u) :
    MergedFields M loc count ((name, types) :: rest) s ((name, type) :: fields) u := by
  refine ⟨hst.trans h.toGrown, ?_, ?_⟩
  . simp only [Entries.keys, List.map_cons, List.cons.injEq, true_and]
    exact h.keys
  . intro name' type' hmem
    rcases List.mem_cons.1 hmem with heq | hmem
    . cases heq
      exact ⟨types, List.mem_cons_self .., htype.grow h.toGrown⟩
    . obtain ⟨types', htypes', hfield⟩ := h.field hmem
      exact ⟨types', List.mem_cons_of_mem _ htypes', hfield⟩

theorem builds_mergeGathered (hunify : Covering M unify) (count : Nat) (loc : Location)
    (found : Entries String (List Handle)) (hs : s.graph.Sound)
    (hfound : ∀ name types, (name, types) ∈ found → ∀ type ∈ types, s.graph.Has type) :
    Builds (RecordMerge.mergeGathered (unifier unify) count loc found)
      (MergedFields M loc count found s) s := by
  induction found generalizing s with
  | nil => exact alike_pure ⟨.refl hs, rfl, fun hmem => nomatch hmem⟩
  | cons entry rest ih =>
    obtain ⟨name, types⟩ := entry
    -- The other fields are merged in the same way, whether this one has become nullable or not.
    have hrest : ∀ type t, s.Grown t → MergedField M loc count types type t →
        Builds (RecordMerge.mergeGathered (unifier unify) count loc rest >>= fun fields =>
          pure ((name, type) :: fields))
          (MergedFields M loc count ((name, types) :: rest) s) t := by
      intro type t hst htype
      have hinside : ∀ name types, (name, types) ∈ rest → ∀ type ∈ types, t.graph.Has type :=
        fun name types hmem type htype =>
          hst.evolves.has type (hfound name types (List.mem_cons_of_mem _ hmem) type htype)
      apply (ih hst.sound hinside).next (fun _ _ h => h.toGrown)
      intro fields u hfields
      exact alike_pure (hfields.cons hst htype)
    unfold RecordMerge.mergeGathered
    apply (hunify types _ _ _ hs (hfound name types (List.mem_cons_self ..))).next
      (fun _ _ h => h.toGrown)
    intro joined t hjoined
    dsimp only
    split
    . have hadds := Graph.adds_addNullable (M := M) hjoined.sound hjoined.has (.inferred name)
      have hnullable : Builds (liftM ((unifier unify).nullable joined (.inferred name)))
          (Added M loc (fun g value => value = .null ∨ Accepts M g joined value) t) t :=
        ⟨rfl, .build hadds.toBuilt, hadds.has, hadds.covers.mono fun _ _ _ hvalue => hvalue.2⟩
      apply hnullable.next (fun _ _ h => h.toGrown)
      intro type u htype
      apply hrest type u (hjoined.toGrown.trans htype.toGrown)
      refine ⟨htype.has, ?_, fun _ => ?_⟩
      . apply htype.covers.mono
        rintro g hg value ⟨hforesees, hvalue⟩
        refine ⟨hforesees, Or.inr (hjoined.covers g (htype.evolves.trans hg) value ?_)⟩
        exact ⟨(hforesees.earlier htype.suffix).inside, hvalue⟩
      . apply htype.covers.mono
        rintro g - value ⟨hforesees, hnull⟩
        exact ⟨hforesees, Or.inl hnull⟩
    . next hcount =>
      rw [pure_bind]
      apply hrest joined t hjoined.toGrown
      refine ⟨hjoined.has, ?_, fun hlt => absurd hlt hcount⟩
      apply hjoined.covers.mono
      rintro g - value ⟨hforesees, hvalue⟩
      exact ⟨hforesees.inside, hvalue⟩

theorem filledFields_eq_ok {g : Graph} {loc : Location} {records : List Handle}
    {all : List Fields} (h : filledFields g loc records = .ok all) :
    (∀ record ∈ records, ∃ fields ∈ all, g.shape? record = some (.record (.filled fields))) ∧
      ∀ fields ∈ all, ∃ record ∈ records, g.shape? record = some (.record (.filled fields)) := by
  induction records generalizing all with
  | nil =>
    cases h
    exact ⟨fun _ hmem => (nomatch hmem), fun _ hmem => (nomatch hmem)⟩
  | cons record rest ih =>
    unfold filledFields at h
    split at h
    . next fields hshape =>
      obtain ⟨more, hmore, rfl⟩ : ∃ more, filledFields g loc rest = .ok more ∧
          fields :: more = all := by
        cases hmore : filledFields g loc rest with
        | error fault =>
          rw [hmore] at h
          cases h
        | ok more =>
          rw [hmore] at h
          cases h
          exact ⟨more, rfl, rfl⟩
      obtain ⟨hforth, hback⟩ := ih hmore
      constructor
      . intro record' hmem
        rcases List.mem_cons.1 hmem with rfl | hmem
        . exact ⟨fields, List.mem_cons_self .., hshape⟩
        . obtain ⟨fields', hfields', hshape'⟩ := hforth record' hmem
          exact ⟨fields', List.mem_cons_of_mem _ hfields', hshape'⟩
      . intro fields' hmem
        rcases List.mem_cons.1 hmem with rfl | hmem
        . exact ⟨record, List.mem_cons_self .., hshape⟩
        . obtain ⟨record', hrecord', hshape'⟩ := hback fields' hmem
          exact ⟨record', List.mem_cons_of_mem _ hrecord', hshape'⟩
    . cases h

theorem filledFields_eq_error {g : Graph} {loc : Location} {records : List Handle} {fault : Fault}
    (h : filledFields g loc records = .error fault) :
    fault = .unresolvedRecursion .unfinishedRecord loc := by
  induction records with
  | nil => cases h
  | cons record rest ih =>
    unfold filledFields at h
    split at h
    . cases hrest : filledFields g loc rest with
      | error fault' =>
        rw [hrest] at h
        cases h
        exact ih hrest
      | ok all =>
        rw [hrest] at h
        cases h
    . cases h
      rfl

theorem has_of_mem_gather (hs : s.graph.Sound) {records : List Handle} {all : List Fields}
    (hall : ∀ fields ∈ all, ∃ record ∈ records,
      s.graph.shape? record = some (.record (.filled fields)))
    {name : String} {types : List Handle} (hmem : (name, types) ∈ RecordMerge.gather all) :
    ∀ type ∈ types, s.graph.Has type := by
  intro type htype
  rw [RecordMerge.eq_typesOf_of_mem_gather hmem] at htype
  obtain ⟨fields, hfields, hfield⟩ := RecordMerge.mem_typesOf.1 htype
  obtain ⟨record, -, hshape⟩ := hall fields hfields
  exact hs.inside hshape type (List.mem_map_of_mem hfield)

theorem MergedFields.fit {all : List Fields} {merged declared : Fields}
    (h : MergedFields M loc all.length (RecordMerge.gather all) s merged t)
    (hkeys : ∀ fields ∈ all, (Entries.keys fields).Nodup) (hdeclared : declared ∈ all)
    {g : Graph} (hg : t.graph.Evolves g) (hforesees : t.Foresees loc g)
    {fields : List (String × Json)}
    (hfit : Fields.Fit (Accepts M g) declared fields) : Fields.Fit (Accepts M g) merged fields := by
  constructor
  . intro name value hvalue
    obtain ⟨type, htype, haccepts⟩ := hfit.1 name value hvalue
    have hname : name ∈ Entries.keys declared := List.mem_map_of_mem htype
    have hgathered := RecordMerge.mem_gather_of_mem hdeclared hname
    have hmerged : name ∈ Entries.keys merged := by
      rw [h.keys]
      exact List.mem_map_of_mem hgathered
    obtain ⟨⟨name', type'⟩, hmem, rfl⟩ := List.mem_map.1 hmerged
    obtain ⟨types, htypes, hfield⟩ := h.field hmem
    refine ⟨type', hmem, hfield.covers g hg value ⟨hforesees, type, ?_, haccepts⟩⟩
    rw [RecordMerge.eq_typesOf_of_mem_gather htypes]
    exact RecordMerge.mem_typesOf.2 ⟨declared, hdeclared, htype⟩
  . intro name type hmem habsent
    obtain ⟨types, htypes, hfield⟩ := h.field hmem
    have heq := RecordMerge.eq_typesOf_of_mem_gather htypes
    -- A record that has the field accepts null for it, and one that has not makes it nullable.
    by_cases hname : name ∈ Entries.keys declared
    . obtain ⟨⟨name', type'⟩, hmem', rfl⟩ := List.mem_map.1 hname
      refine hfield.covers g hg .null ⟨hforesees, type', ?_, hfit.2 _ type' hmem' habsent⟩
      rw [heq]
      exact RecordMerge.mem_typesOf.2 ⟨declared, hdeclared, hmem'⟩
    . apply hfield.null _ g hg .null ⟨hforesees, rfl⟩
      rw [heq]
      exact (RecordMerge.length_typesOf_lt_iff hkeys name).2 ⟨declared, hdeclared, hname⟩

theorem builds_joinRecords (hunify : Covering M unify) (records : List Handle) (hint : NameHint)
    (loc : Location) (hs : s.graph.Sound)
    (hrecords : ∀ record ∈ records, ∃ fields, s.graph.shape? record = some (.record fields)) :
    Builds (joinRecords unify records hint loc) (fun found t =>
      AddedAll M loc (anyOf M records) 0 1 s found t ∧ ∀ h, records = [h] → h ∈ found) s := by
  unfold joinRecords
  split
  . apply alike_pure
    exact ⟨.nil hs (by simp [anyOf]), fun h hsole => nomatch hsole⟩
  . next record =>
    obtain ⟨fields, hshape⟩ := hrecords record (List.mem_singleton_self _)
    apply alike_pure
    refine ⟨⟨.refl hs, .single (Graph.rank?_of_shape? hshape) (by decide) (by decide),
      fun g _ _ value hvalue => hvalue⟩, ?_⟩
    rintro h ⟨⟩
    exact List.mem_singleton_self _
  . next hmany =>
    apply alike_state_bind
    apply alike_check_bind
    . exact fun fault hfault => ⟨.refl hs, plain_filledFields _ _ _ fault hfault⟩
    . intro all hall
      obtain ⟨hforth, hback⟩ := filledFields_eq_ok hall
      have hkeys : ∀ fields ∈ all, (Entries.keys fields).Nodup := by
        intro fields hfields
        obtain ⟨record, -, hshape⟩ := hback fields hfields
        exact hs.fields hshape
      have hnoted : s.Grown { s with journal := .merged loc records :: s.journal } :=
        .note hs trivial
      apply alike_change_bind
      refine Builds.later ?_ hnoted
      apply (builds_mergeGathered hunify all.length loc _ hnoted.sound
        fun _ _ hmem => has_of_mem_gather hs hback hmem).next (fun _ _ h => h.toGrown)
      intro merged t hmerged
      have hnodup : (Entries.keys merged).Nodup := by
        rw [hmerged.keys]
        exact RecordMerge.nodup_keys_gather all
      have hhas : ∀ field ∈ merged, t.graph.Has field.2 := by
        rintro ⟨name, type⟩ hfield
        obtain ⟨types, -, hmergedField⟩ := hmerged.field hfield
        exact hmergedField.has
      apply (builds_build loc (Graph.adds_addRecord (M := M) hmerged.sound hint hhas hnodup)).next
        (fun _ _ h => h.1.toGrown)
      rintro record u ⟨hrecord, hrank, -⟩
      apply alike_pure
      have hgrown := hnoted.trans (hmerged.toGrown.trans hrecord.toGrown)
      refine ⟨⟨hgrown, .single hrank (by decide) (by decide), ?_⟩,
        fun h hsole => absurd hsole (hmany h)⟩
      rintro g hg hforesees value ⟨given, hgiven, hvalue⟩
      obtain ⟨declared, hdeclared, hshape⟩ := hforth given hgiven
      have hfinal := (hgrown.evolves.trans hg).shape? hshape rfl
      obtain ⟨fields, rfl, hfit⟩ := hvalue.fits hfinal
      refine ⟨record, List.mem_singleton_self _, hrecord.covers g hg _ ⟨hforesees, fields, rfl, ?_⟩⟩
      exact hmerged.fit hkeys hdeclared (hrecord.evolves.trans hg)
        (hforesees.earlier hrecord.suffix) hfit

end

end Unification

end SchemaGraph
