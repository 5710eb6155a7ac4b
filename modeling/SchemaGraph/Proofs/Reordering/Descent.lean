import SchemaGraph.Proofs.Descent.Contract
import SchemaGraph.Proofs.Descent.Termination
import SchemaGraph.Proofs.Descent.Upkeep
import SchemaGraph.Proofs.Reordering.Names

/-!
This module contains the conversions of two documents side by side which differ only in the order
and the repetition of the names in their lists of types. As long as objects and arrays come in the
same order, either both conversions succeed or none of them does. The order of these two matters,
because an object is recorded before the items of an array are asked for, or after that.
-/

namespace SchemaGraph

theorem StatePair.Mirrors.recorded {p : StatePair} (hp : p.Mirrors) {h k : Handle}
    (hR : p.nodes h k) (loc : Location) :
    p.GoesTo ⟨p.left.recorded loc h, p.right.recorded loc k, p.nodes⟩ := by
  refine ⟨fun _ _ => id, .refl _, .refl _, hp.document, hp.graph, ?_, hp.active, hp.reentered⟩
  intro loc'
  unfold State.recorded
  dsimp only
  rw [Entries.get?_put, Entries.get?_put]
  split
  . exact .some hR
  . exact hp.memo loc'

namespace Graph

variable {R : Correspondence} {g g' : Graph} {a b : Handle}

structure BothFilled (R : Correspondence) (g g' g₁ g₁' : Graph) : Prop where
  evolves : g.Evolves g₁
  evolves' : g'.Evolves g₁'
  mirrors : g₁.Mirrors R g₁'

theorem Mirrors.fillRecord (hm : g.Mirrors R g') (hR : R a b) {fields fields' : Fields}
    (hfields : fields.Related R fields') (hkeys : (Entries.keys fields).Nodup) :
    Agree (BothFilled R g g') (g.fillRecord a fields) (g'.fillRecord b fields') := by
  obtain ⟨shape, shape', hshape, hshape', halike⟩ := hm.alike hR
  unfold Graph.fillRecord
  rw [hshape, hshape']
  cases halike with
  | openRecord =>
    have hfills := fills_setShape hshape rfl (.record fields)
    have hfills' := fills_setShape hshape' rfl (.record fields')
    exact .values ⟨hfills.evolves, hfills'.evolves,
      hm.fills hR hfills hfills' (.record hfields) hkeys rfl⟩
  | _ => exact .faults _ _

theorem Mirrors.fillMap (hm : g.Mirrors R g') (hR : R a b) {values values' : Handle}
    (hvalues : R values values') :
    Agree (BothFilled R g g') (g.fillMap a values) (g'.fillMap b values') := by
  obtain ⟨shape, shape', hshape, hshape', halike⟩ := hm.alike hR
  unfold Graph.fillMap
  rw [hshape, hshape']
  cases halike with
  | openMap =>
    have hfills := fills_setShape hshape rfl (.map values)
    have hfills' := fills_setShape hshape' rfl (.map values')
    exact .values ⟨hfills.evolves, hfills'.evolves,
      hm.fills hR hfills hfills' (.map hvalues) trivial rfl⟩
  | _ => exact .faults _ _

end Graph

namespace Descent

open Effect

def Mirroring (convert convert' : Convert) : Prop :=
  ∀ (p : StatePair) node node' loc hint, p.Mirrors → Twins node node' →
    Mirrored p (convert node loc hint) (convert' node' loc hint) Related

variable {p : StatePair} {convert convert' : Convert} {schema schema' : Schema} {loc : Location}
  {hint : NameHint}

theorem mirrored_intoAlternatives (hc : Mirroring convert convert') (hp : p.Mirrors)
    (step : Nat → Step) (loc : Location) (hint : NameHint) (index : Nat) {nodes nodes' : List Json}
    (h : List.Forall₂ Twins nodes nodes') :
    Mirrored p (intoAlternatives convert step loc hint index nodes)
      (intoAlternatives convert' step loc hint index nodes') AllRelated := by
  induction h generalizing p index with
  | nil => exact mirrored_pure hp .nil
  | cons hnode _ ih =>
    apply (hc p _ _ _ _ hp hnode).next
    intro type type' q hpq hR
    apply (ih hpq.mirrors _).next
    intro types types' r hqr hRs
    exact mirrored_pure hqr.mirrors (.cons (hqr.sub _ _ hR) hRs)

theorem mirrored_intoFields (hc : Mirroring convert convert') (hp : p.Mirrors)
    (required : List String) (loc : Location) {fields fields' : Entries String Json}
    (h : fields.Related Twins fields') :
    Mirrored p (intoFields convert required loc fields) (intoFields convert' required loc fields')
      (FieldsRelated fields.keys) := by
  induction h generalizing p with
  | nil => exact mirrored_pure hp ⟨.nil, rfl⟩
  | @cons field field' rest rest' hfield _ ih =>
    obtain ⟨name, node⟩ := field
    obtain ⟨_, node'⟩ := field'
    obtain ⟨rfl, hnode⟩ := hfield
    unfold intoFields
    apply (hc p _ _ _ _ hp hnode).next
    intro declared declared' q hpq hR
    dsimp only
    split
    . rw [pure_bind, pure_bind]
      exact (ih hpq.mirrors).consField hR name
    . apply (mirrored_nullable hpq.mirrors hR _).next
      intro type type' r hqr hR'
      exact (ih hqr.mirrors).consField hR' name

theorem mirrored_fill {complete complete' : Graph → Except Fault Graph} {h k : Handle}
    (hp : p.Mirrors) (hR : p.nodes h k)
    (hfilled : Agree (Graph.BothFilled p.nodes p.left.graph p.right.graph)
      (complete p.left.graph) (complete' p.right.graph)) :
    Mirrored p (do
      fill complete
      return h) (do
      fill complete'
      return k) Related := by
  have hfill : Mirrored p (fill complete) (fill complete') fun _ _ q => q.nodes h k := by
    unfold Mirrored Effect.run fill
    match complete p.left.graph, complete' p.right.graph, hfilled with
    | _, _, .faults _ _ => exact .faults
    | _, _, .values hboth =>
      exact .results ⟨p.nodes, hp.withGraphs (fun _ _ => id) hboth.evolves hboth.evolves'
        hboth.mirrors, hR⟩
  apply hfill.next
  intro _ _ q hpq hR'
  exact mirrored_pure hpq.mirrors hR'

theorem mirrored_record_bind {f f' : Unit → Effect Handle} {h k : Handle} (hp : p.Mirrors)
    (hR : p.nodes h k) (loc : Location)
    (hnext : ∀ q : StatePair, q.Mirrors → q.nodes h k → Mirrored q (f ()) (f' ()) Related) :
    Mirrored p (record loc h >>= f) (record loc k >>= f') Related := by
  have hrecorded := hp.recorded hR loc
  exact mirrored_change_bind hrecorded (hnext _ hrecorded.mirrors hR)

theorem mirrored_intoRecord (hc : Mirroring convert convert') (hp : p.Mirrors)
    (hschemas : schema.Twins schema') {properties properties' : Entries String Json}
    (h : TwinFields properties properties') (loc : Location) (hint : NameHint) :
    Mirrored p (intoRecord convert schema properties loc hint)
      (intoRecord convert' schema' properties' loc hint) Related := by
  unfold intoRecord
  apply mirrored_check_bind (hschemas.required loc)
  rintro required _ rfl
  apply (mirrored_push hp ⟨.record .pending, some hint⟩ ⟨.record .pending, some hint⟩ .openRecord
    trivial).next
  intro record record' q hpq hR
  apply mirrored_record_bind hpq.mirrors hR
  intro r hr hR
  apply (mirrored_intoFields hc hr required loc h.twins).next
  rintro fields fields' u hru ⟨hfields, hkeys⟩
  apply mirrored_fill hru.mirrors (hru.sub _ _ hR)
  apply hru.mirrors.graph.fillRecord (hru.sub _ _ hR) hfields
  rw [hkeys]
  exact h.unique

theorem mirrored_intoMap (hc : Mirroring convert convert') (hp : p.Mirrors) {values values' : Json}
    (h : Twins values values') (loc : Location) (hint : NameHint) :
    Mirrored p (intoMap convert values loc hint) (intoMap convert' values' loc hint) Related := by
  unfold intoMap
  apply (mirrored_push hp ⟨.map .pending, none⟩ ⟨.map .pending, none⟩ .openMap trivial).next
  intro map map' q hpq hR
  apply mirrored_record_bind hpq.mirrors hR
  intro r hr hR
  apply (hc r _ _ _ _ hr h).next
  intro type type' u hru htype
  apply mirrored_fill hru.mirrors (hru.sub _ _ hR)
  exact hru.mirrors.graph.fillMap (hru.sub _ _ hR) htype

theorem mirrored_intoObject (hc : Mirroring convert convert') (hp : p.Mirrors)
    (hschemas : schema.Twins schema') (loc : Location) (hint : NameHint) :
    Mirrored p (intoObject convert schema loc hint) (intoObject convert' schema' loc hint)
      Related := by
  have hplain : Mirrored p (do
      let any ← build fun g => g.addPrimitive .any
      build fun g => g.addMap any) (do
      let any ← build fun g => g.addPrimitive .any
      build fun g => g.addMap any) Related := by
    apply (mirrored_primitive hp .any).next
    intro any any' q hpq hR
    exact mirrored_share hpq.mirrors (.map any) (.map any') none none (.map hR) trivial
  unfold intoObject
  apply mirrored_check_bind (hschemas.properties? loc)
  rintro _ _ (hproperties | _)
  . exact mirrored_intoRecord hc hp hschemas hproperties loc hint
  . dsimp only
    match schema.additional?, schema'.additional?, hschemas.additional? with
    | _, _, .none => exact hplain
    | _, _, .some .allowed => exact hplain
    | _, _, .some .forbidden =>
      exact mirrored_push hp ⟨.record (.filled []), some hint⟩ ⟨.record (.filled []), some hint⟩
        (.record .nil) List.nodup_nil
    | _, _, .some (.schema hvalues) => exact mirrored_intoMap hc hp hvalues loc hint

theorem mirrored_intoArray (hc : Mirroring convert convert') (hp : p.Mirrors)
    (hschemas : schema.Twins schema') (loc : Location) (hint : NameHint) :
    Mirrored p (intoArray convert schema loc hint) (intoArray convert' schema' loc hint)
      Related := by
  have harray : ∀ items items' q, p.GoesTo q → Related items items' q →
      Mirrored q (build fun g => g.addArray items) (build fun g => g.addArray items') Related :=
    fun items items' q hpq hR =>
      mirrored_share hpq.mirrors (.array items) (.array items') none none (.array hR) trivial
  unfold intoArray
  apply mirrored_check_bind (hschemas.items? loc)
  rintro _ _ (hnode | _)
  . exact (hc p _ _ _ _ hp hnode).next harray
  . exact (mirrored_primitive hp .any).next harray

theorem mirrored_intoNested (hc : Mirroring convert convert') (hp : p.Mirrors)
    (hschemas : schema.Twins schema') (loc : Location) (hint : NameHint) {name : String}
    (hnests : nests name = true) :
    Mirrored p (intoNamed convert schema loc hint name) (intoNamed convert' schema' loc hint name)
      Related := by
  unfold nests at hnests
  rw [Bool.or_eq_true, decide_eq_true_eq, decide_eq_true_eq] at hnests
  rcases hnests with rfl | rfl
  . exact mirrored_intoObject hc hp hschemas loc hint
  . exact mirrored_intoArray hc hp hschemas loc hint

theorem mirrored_intoNamed (hc : Mirroring convert convert') (hp : p.Mirrors)
    (hschemas : schema.Twins schema') (loc : Location) (hint : NameHint) (name : String) :
    Mirrored p (intoNamed convert schema loc hint name) (intoNamed convert' schema' loc hint name)
      Related := by
  cases hnests : nests name with
  | true => exact mirrored_intoNested hc hp hschemas loc hint hnests
  | false =>
    have hasks := asksFor_intoNamed hnests schema convert loc hint
    have hasks' := asksFor_intoNamed hnests schema' convert' loc hint
    rw [← plainKey?_eq hschemas.format?] at hasks'
    match plainKey? schema name, hasks, hasks' with
    | none, ⟨fault, heq⟩, ⟨fault', heq'⟩ =>
      rw [heq, heq']
      exact mirrored_fail fault fault'
    | some key, ⟨hplain, hint₁, heq⟩, ⟨_, hint₂, heq'⟩ =>
      rw [heq, heq']
      exact mirrored_share hp key key hint₁ hint₂ (Shape.alike_of_isPlain hplain)
        (Graph.takes_of_isPlain hplain).allows

theorem perm_distinct {names names' : List String} (h : ∀ name, name ∈ names ↔ name ∈ names') :
    (distinct names).Perm (distinct names') := by
  rw [List.perm_ext_iff_of_nodup (nodup_distinct _) (nodup_distinct _)]
  intro name
  rw [mem_distinct, mem_distinct]
  exact h name

theorem mirrored_severalNames (hc : Mirroring convert convert') (hp : p.Mirrors)
    (hschemas : schema.Twins schema') (loc : Location) (hint : NameHint)
    {names names' : List String} (hnames : ∀ name, name ∈ names ↔ name ∈ names')
    (hinterleaved : Interleaved names names') (hmany : 2 ≤ names.length)
    (hmany' : 2 ≤ names'.length) :
    Mirrored p (do
      let types ← collect (names.map fun name => intoNamed convert schema loc hint name)
      Unification.unify types hint loc) (do
      let types ← collect (names'.map fun name => intoNamed convert' schema' loc hint name)
      Unification.unify types hint loc) Related := by
  by_cases hknown : ∀ name ∈ names, nests name = false → plainKey? schema name ≠ none
  . have hknown' : ∀ name ∈ names', nests name = false → plainKey? schema' name ≠ none := by
      rw [← plainKey?_eq hschemas.format?]
      exact fun name hmem => hknown name ((hnames name).2 hmem)
    apply (mirrored_collect_names hinterleaved hp hknown hknown' hschemas.format?
      fun name hnests q hq => mirrored_intoNested hc hq hschemas loc hint hnests).next
    intro hs ks q hpq htally
    apply Unification.mirrored_unify hpq.mirrors
    . rwa [htally.length_left]
    . rwa [htally.symm.length_left]
    . exact htally.alike_leaves hpq.mirrors.graph hnames
  . -- A name that is not known keeps both sides from a result.
    push Not at hknown
    obtain ⟨name, hmem, hplain, hkey⟩ := hknown
    obtain ⟨fault, t, hrun⟩ := @run_collect_names_of_unknown schema convert loc hint names p.left
      name hmem hplain hkey
    rw [plainKey?_eq hschemas.format?] at hkey
    obtain ⟨fault', t', hrun'⟩ := @run_collect_names_of_unknown schema' convert' loc hint names'
      p.right name ((hnames name).1 hmem) hplain hkey
    unfold Mirrored
    rw [run_bind, run_bind, hrun, hrun']
    exact .faults

theorem mirrored_intoNames (hc : Mirroring convert convert') (hp : p.Mirrors)
    (hschemas : schema.Twins schema') (loc : Location) (hint : NameHint)
    {names names' : List String} (h : SameTypes names names') :
    Mirrored p (intoNames convert schema loc hint names)
      (intoNames convert' schema' loc hint names') Related := by
  have hperm := perm_distinct h.mem
  have hinterleaved := interleaved_of_filter_eq h.nesting
  unfold intoNames
  revert hperm hinterleaved
  generalize distinct names = names
  generalize distinct names' = names'
  intro hperm hinterleaved
  match names, names', hperm.length_eq with
  | [], [], _ => exact Unification.mirroring_unify p [] [] hint loc hp .nil
  | [name], [name'], _ =>
    cases List.perm_singleton.1 hperm
    exact mirrored_intoNamed hc hp hschemas loc hint name
  | _ :: _ :: _, _ :: _ :: _, _ =>
    exact mirrored_severalNames hc hp hschemas loc hint (fun name => hperm.mem_iff) hinterleaved
      (Nat.le_add_left _ _) (Nat.le_add_left _ _)

theorem mirrored_intoReference (hc : Mirroring convert convert') (hp : p.Mirrors)
    {node node' : Json} (h : Twins node node') (text : String) (loc : Location)
    (hint : NameHint) :
    Mirrored p (intoReference convert text ⟨node, loc⟩ hint)
      (intoReference convert' text ⟨node', loc⟩ hint) Related := by
  unfold intoReference
  have hreference : Agree Eq (Reference.ofText text) (Reference.ofText text) := by
    cases Reference.ofText text with
    | error fault => exact .faults fault fault
    | ok reference => exact .values rfl
  apply mirrored_check_bind hreference
  rintro reference _ rfl
  apply mirrored_state_bind
  apply mirrored_check_bind (Twins.walk hp.document h loc reference.target.steps)
  rintro ⟨target, loc'⟩ ⟨target', _⟩ ⟨rfl, htarget⟩
  exact hc p _ _ _ _ hp htarget

theorem mirrored_intoForm (hc : Mirroring convert convert') (hp : p.Mirrors)
    (hschemas : schema.Twins schema') {node node' : Json} (hnodes : Twins node node')
    (loc : Location) (hint : NameHint) {form form' : Form} (h : form.Twins form') :
    Mirrored p (intoForm convert schema ⟨node, loc⟩ hint form)
      (intoForm convert' schema' ⟨node', loc⟩ hint form') Related := by
  cases h with
  | reference text => exact mirrored_intoReference hc hp hnodes text loc hint
  | enum cases =>
    exact mirrored_share hp (.enum (distinct cases)) (.enum (distinct cases)) (some hint)
      (some hint) (.enum fun _ => Iff.rfl) trivial
  | named hnames => exact mirrored_intoNames hc hp hschemas loc hint hnames
  | choice step h =>
    apply (mirrored_intoAlternatives hc hp step loc hint 0 h).next
    intro types types' q hpq hRs
    exact Unification.mirroring_unify q _ _ _ _ hpq.mirrors hRs
  | anything => exact mirrored_primitive hp .any

theorem mirrored_intoSchema (hc : Mirroring convert convert') (hp : p.Mirrors)
    {node node' : Json} (h : Twins node node') (loc : Location) (hint : NameHint) :
    Mirrored p (intoSchema convert node loc hint) (intoSchema convert' node' loc hint) Related := by
  rw [intoSchema_eq convert ⟨node, loc⟩, intoSchema_eq convert' ⟨node', loc⟩]
  apply mirrored_check_bind (h.ofJson loc)
  intro schema schema' hschemas
  apply mirrored_check_bind (hschemas.form loc)
  intro form form' hforms
  rw [hschemas.title?]
  exact mirrored_intoForm hc hp hschemas h loc _ hforms

theorem mirrored_between {e e' mark mark' : Effect Handle}
    (before before' after after' : State → State)
    (hrun : mark.run p.left = ((e.run (before p.left)).1, after (e.run (before p.left)).2))
    (hrun' : mark'.run p.right =
      ((e'.run (before' p.right)).1, after' (e'.run (before' p.right)).2))
    (hbefore : p.GoesTo ⟨before p.left, before' p.right, p.nodes⟩)
    (hafter : ∀ q : StatePair, q.Mirrors → q.GoesTo ⟨after q.left, after' q.right, q.nodes⟩)
    (h : ∀ q : StatePair, q.Mirrors → Mirrored q e e' Related) :
    Mirrored p mark mark' Related := by
  unfold Mirrored
  rw [hrun, hrun']
  apply Outcome.map (h _ hbefore.mirrors)
  rintro a t b t' ⟨nodes, hpq, hR⟩
  exact ⟨nodes, (hbefore.trans hpq).trans (hafter _ hpq.mirrors), hR⟩

theorem mirrored_whileActive {e e' : Effect Handle} (hp : p.Mirrors) (node node' : Json)
    (loc : Location) (h : ∀ q : StatePair, q.Mirrors → Mirrored q e e' Related) :
    Mirrored p (whileActive loc node e) (whileActive loc node' e') Related := by
  apply mirrored_between
    (fun s => { s with active := loc :: s.active, journal := .entered loc node :: s.journal })
    (fun s => { s with active := loc :: s.active, journal := .entered loc node' :: s.journal })
    (fun s => { s with active := s.active.erase loc, journal := .left loc :: s.journal })
    (fun s => { s with active := s.active.erase loc, journal := .left loc :: s.journal })
    rfl rfl _ _ h
  . exact ⟨fun _ _ => id, .refl _, .refl _, hp.document, hp.graph, hp.memo,
      congrArg (loc :: ·) hp.active, hp.reentered⟩
  . exact fun q hq => ⟨fun _ _ => id, .refl _, .refl _, hq.document, hq.graph, hq.memo,
      congrArg (List.erase · loc) hq.active, hq.reentered⟩

theorem mirrored_whileReentered {e e' : Effect Handle} (hp : p.Mirrors) (node node' : Json)
    (loc : Location) (h : ∀ q : StatePair, q.Mirrors → Mirrored q e e' Related) :
    Mirrored p (whileReentered loc node e) (whileReentered loc node' e') Related := by
  apply mirrored_between
    (fun s => { s with
      reentered := loc :: s.reentered, journal := .reentered loc node s.memo :: s.journal })
    (fun s => { s with
      reentered := loc :: s.reentered, journal := .reentered loc node' s.memo :: s.journal })
    (fun s => { s with reentered := s.reentered.erase loc, journal := .left loc :: s.journal })
    (fun s => { s with reentered := s.reentered.erase loc, journal := .left loc :: s.journal })
    rfl rfl _ _ h
  . exact ⟨fun _ _ => id, .refl _, .refl _, hp.document, hp.graph, hp.memo, hp.active,
      congrArg (loc :: ·) hp.reentered⟩
  . exact fun q hq => ⟨fun _ _ => id, .refl _, .refl _, hq.document, hq.graph, hq.memo, hq.active,
      congrArg (List.erase · loc) hq.reentered⟩

theorem mirrored_visit {e e' : Effect Handle} (hp : p.Mirrors) (node node' : Json)
    (loc : Location) (h : ∀ q : StatePair, q.Mirrors → Mirrored q e e' Related) :
    Mirrored p (visit ⟨node, loc⟩ e) (visit ⟨node', loc⟩ e') Related := by
  have hrecord : ∀ (a b : Handle) (q : StatePair), q.Mirrors → Related a b q →
      Mirrored q (record loc a >>= fun _ => pure a) (record loc b >>= fun _ => pure b) Related :=
    fun a b q hq hR => mirrored_record_bind hq hR loc fun r hr hR' => mirrored_pure hr hR'
  unfold visit note
  have hnote := hp.journal (.requested loc node :: p.left.journal)
    (.requested loc node' :: p.right.journal)
  apply mirrored_change_bind hnote
  apply mirrored_state_bind
  dsimp only
  match p.left.memo.get? loc, p.right.memo.get? loc, hp.memo loc with
  | _, _, .some hR => exact mirrored_pure hnote.mirrors hR
  | _, _, .none =>
    have hactive : loc ∈ p.left.active ↔ loc ∈ p.right.active := by rw [hp.active]
    have hreentered : loc ∈ p.left.reentered ↔ loc ∈ p.right.reentered := by rw [hp.reentered]
    dsimp only
    by_cases hagain : loc ∈ p.left.active
    . rw [if_pos hagain, if_pos (hactive.1 hagain)]
      by_cases hthird : loc ∈ p.left.reentered
      . rw [if_pos hthird, if_pos (hreentered.1 hthird)]
        exact mirrored_fail _ _
      . rw [if_neg hthird, if_neg (hthird ∘ hreentered.2)]
        apply (mirrored_whileReentered hnote.mirrors node node' loc h).next
        exact fun a b q hpq hR => hrecord a b q hpq.mirrors hR
    . rw [if_neg hagain, if_neg (hagain ∘ hactive.2)]
      apply (mirrored_whileActive hnote.mirrors node node' loc h).next
      exact fun a b q hpq hR => hrecord a b q hpq.mirrors hR

theorem mirroring_convertWithin (depth depth' : Nat) :
    Mirroring (convertWithin depth) (convertWithin depth') := by
  induction depth generalizing depth' with
  | zero => exact fun _ _ _ _ _ _ _ => .endless rfl
  | succ depth ih =>
    cases depth' with
    | zero => exact fun _ _ _ _ _ _ _ => .endless' rfl
    | succ depth' =>
      intro p node node' loc hint hp h
      exact mirrored_visit hp node node' loc
        fun q hq => mirrored_intoSchema (ih depth') hq h loc hint

theorem mirroring_convert : Mirroring Descent.convert Descent.convert := by
  intro p node node' loc hint hp h
  unfold Descent.convert
  apply mirrored_state_bind
  exact mirroring_convertWithin _ _ p node node' loc hint hp h

end Descent

namespace Conversion

open Descent

theorem mirrors_start {document document' : Json} (h : Twins document document') :
    (StatePair.mk (.start document) (.start document') fun _ _ => False).Mirrors where
  document := h
  graph := ⟨Graph.tidy_empty, Graph.tidy_empty, ⟨fun _ _ _ h => h.elim, fun _ _ _ h => h.elim⟩,
    fun h => h.elim, fun h => h.elim⟩
  memo _ := .none
  active := rfl
  reentered := rfl

variable {document document' : Json}

theorem mirrored_run (h : Twins document document') (options : Options) :
    Outcome (fun root t root' t' => ∃ nodes, t.graph.Mirrors nodes t'.graph ∧ nodes root root')
      (run document options) (run document' options) := by
  have hmirrored := mirroring_convert _ document document' .root (.inferred options.rootName)
    (mirrors_start h) h
  apply Outcome.map hmirrored id id
  rintro root t root' t' ⟨nodes, hpq, hR⟩
  exact ⟨nodes, hpq.mirrors.graph, hR⟩

theorem isEndless_of_run (hkeys : document.hasUniqueKeys = true) (options : Options)
    (hends : ∀ loc, (run document options).1 ≠ .error (.endlessUnification loc)) (fault : Fault)
    (hrun : (run document options).1 = .error fault) : fault.isEndless = false := by
  cases fault with
  | endlessUnification loc => exact absurd hrun (hends loc)
  | endlessDescent loc => exact absurd hrun (run_ne_endlessDescent hkeys options loc)
  | _ => rfl

theorem ok_iff_of_reordered (hkeys : document.hasUniqueKeys = true)
    (hkeys' : document'.hasUniqueKeys = true) (hreordered : Reordered document document')
    (options : Options)
    (hends : ∀ loc, (run document options).1 ≠ .error (.endlessUnification loc))
    (hends' : ∀ loc, (run document' options).1 ≠ .error (.endlessUnification loc)) :
    (∃ root, (run document options).1 = .ok root) ↔
      ∃ root, (run document' options).1 = .ok root := by
  have htwins : Twins document document' := Counterparts.twins ⟨hkeys, hreordered⟩
  apply (mirrored_run htwins options).ok_iff
  . exact isEndless_of_run hkeys options hends
  . exact isEndless_of_run hkeys' options hends'

def listing (names : List String) : Json :=
  .object [("type", .array (names.map .string)), ("properties", .object []),
    ("items", .object [("$ref", .string "#")])]

theorem reordered_listing {names names' : List String} (h : SameTypes names names') :
    Reordered (listing names) (listing names') := by
  have hitems : Reordered (.object [("$ref", .string "#")]) (.object [("$ref", .string "#")]) :=
    .object (.cons (.value _ (.string "#")) .nil)
  exact .object (.cons (.types h) (.cons (.value _ (.object .nil)) (.cons (.value _ hitems) .nil)))

theorem ok_iff_of_reordered_listing :
    SameTypes ["object", "null", "array", "object"] ["null", "object", "array"] ∧
      ((∃ root, (run (listing ["object", "null", "array", "object"]) {}).1 = .ok root) ↔
        ∃ root, (run (listing ["null", "object", "array"]) {}).1 = .ok root) := by
  have hnames : SameTypes ["object", "null", "array", "object"] ["null", "object", "array"] :=
    ⟨by simp only [List.mem_cons, List.not_mem_nil]; tauto, by decide⟩
  have hrun : (run (listing ["object", "null", "array", "object"]) {}).1 = .ok ⟨4⟩ := by
    decide +kernel
  have hrun' : (run (listing ["null", "object", "array"]) {}).1 = .ok ⟨4⟩ := by decide +kernel
  refine ⟨hnames, ok_iff_of_reordered (by decide) (by decide) (reordered_listing hnames) {} ?_ ?_⟩
  . intro loc heq
    cases hrun.symm.trans heq
  . intro loc heq
    cases hrun'.symm.trans heq

theorem arrays_before_objects :
    (∀ name, name ∈ ["array", "object"] ↔ name ∈ ["object", "array"]) ∧
      (listing ["array", "object"]).hasUniqueKeys = true ∧
      (run (listing ["array", "object"]) {}).1 =
        .error (.unresolvedRecursion .endlessReference .root) ∧
      (listing ["object", "array"]).hasUniqueKeys = true ∧
      (run (listing ["object", "array"]) {}).1 = .ok ⟨2⟩ := by
  refine ⟨?_, by decide, by decide +kernel, by decide, by decide +kernel⟩
  intro name
  rw [List.mem_pair, List.mem_pair, or_comm]

end Conversion

end SchemaGraph
