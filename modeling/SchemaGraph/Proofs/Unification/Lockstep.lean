import SchemaGraph.Proofs.Abreast
import SchemaGraph.Proofs.Unification.Settled
import SchemaGraph.Proofs.Unification.Twins

/-!
This module contains two unifications in lockstep. They are given the same types in different orders
and numbers, and they work on graphs that are twins. Unless one of them merges records or is given up
as endless they end with the same result or the same fault, and the graphs stay twins.
-/

namespace SchemaGraph

structure State.InStep (s s' t t' : State) : Prop where
  twins : t.graph.Twins t'.graph
  grows : s.graph.Grows t.graph
  merges_le : s.merges ≤ t.merges
  merges_le' : s'.merges ≤ t'.merges

theorem State.InStep.trans {s s' t t' u u' : State} (h : s.InStep s' t t')
    (h' : t.InStep t' u u') : s.InStep s' u u' where
  twins := h'.twins
  grows := h.grows.trans h'.grows
  merges_le := Nat.le_trans h.merges_le h'.merges_le
  merges_le' := Nat.le_trans h.merges_le' h'.merges_le'

theorem State.InStep.refl {s s' : State} (h : s.graph.Twins s'.graph) : s.InStep s' s s' where
  twins := h
  grows := .refl _
  merges_le := Nat.le_refl _
  merges_le' := Nat.le_refl _

namespace Effect

variable {α β : Type}

/--
A run from `s` has neither merged records nor been given up as endless.
-/
structure Quiet (s : State) (x : Except Fault α × State) : Prop where
  merges_le : x.2.merges ≤ s.merges
  ends loc : x.1 ≠ .error (.endlessUnification loc)

abbrev InLockstep (e e' : Effect α) (Q : α → State → Prop) (s s' : State) : Prop :=
  Abreast e e' (fun a t t' => Q a t ∧ s.InStep s' t t') (fun _ t t' => t.graph.Twins t'.graph) s s'

def InLockstepIfQuiet (e e' : Effect α) (Q : α → State → Prop) (s s' : State) : Prop :=
  Quiet s (e.run s) → Quiet s' (e'.run s') → InLockstep e e' Q s s'

variable {e e' : Effect α} {f f' : α → Effect β} {Q Q' : α → State → Prop} {R : β → State → Prop}
  {s s' : State}

theorem Quiet.of_bind (h : Quiet s ((e >>= f).run s))
    (hmerges : ∀ a t, t.merges ≤ ((f a).run t).2.merges) : Quiet s (e.run s) := by
  rw [run_bind] at h
  generalize e.run s = x at h
  rcases x with ⟨fault | a, t⟩
  . exact ⟨h.merges_le, fun loc heq => h.ends loc (congrArg _ (Except.error.inj heq))⟩
  . exact ⟨Nat.le_trans (hmerges a t) h.merges_le, nofun⟩

theorem InLockstep.ifQuiet (h : InLockstep e e' Q s s') : InLockstepIfQuiet e e' Q s s' :=
  fun _ _ => h

theorem InLockstep.next (h : InLockstep e e' Q s s')
    (hnext : ∀ a t t', Q a t → s.InStep s' t t' → InLockstepIfQuiet (f a) (f' a) R t t') :
    InLockstepIfQuiet (e >>= f) (e' >>= f') R s s' := by
  intro hquiet hquiet'
  unfold InLockstep Abreast at h ⊢
  rw [run_bind] at hquiet hquiet' ⊢
  rw [run_bind]
  generalize e.run s = x at h hquiet ⊢
  generalize e'.run s' = x' at h hquiet' ⊢
  cases h with
  | fault htwins => exact .fault htwins
  | result h =>
    obtain ⟨ha, hstep⟩ := h
    have hend := hnext _ _ _ ha hstep
      ⟨Nat.le_trans hquiet.merges_le hstep.merges_le, hquiet.ends⟩
      ⟨Nat.le_trans hquiet'.merges_le hstep.merges_le', hquiet'.ends⟩
    exact hend.mono (fun _ _ _ hb => ⟨hb.1, hstep.trans hb.2⟩) fun _ _ _ => id

theorem InLockstepIfQuiet.next (h : InLockstepIfQuiet e e' Q s s')
    (hmerges : ∀ a t, t.merges ≤ ((f a).run t).2.merges)
    (hmerges' : ∀ a t, t.merges ≤ ((f' a).run t).2.merges)
    (hnext : ∀ a t t', Q a t → s.InStep s' t t' → InLockstepIfQuiet (f a) (f' a) R t t') :
    InLockstepIfQuiet (e >>= f) (e' >>= f') R s s' :=
  fun hquiet hquiet' =>
    (h (hquiet.of_bind hmerges) (hquiet'.of_bind hmerges')).next hnext hquiet hquiet'

theorem InLockstepIfQuiet.and (h : InLockstepIfQuiet e e' Q s s') (hleft : Returns e Q' s) :
    InLockstepIfQuiet e e' (fun a t => Q a t ∧ Q' a t) s s' := by
  intro hquiet hquiet'
  have hend := h hquiet hquiet'
  have hleft := hleft.2
  unfold InLockstep Abreast at hend ⊢
  generalize e.run s = x at hend hleft ⊢
  generalize e'.run s' = x' at hend ⊢
  cases hend with
  | fault htwins => exact .fault htwins
  | result h => exact .result ⟨⟨h.1, hleft⟩, h.2⟩

theorem lockstep_pure {a : α} (h : s.graph.Twins s'.graph) (ha : Q a s) :
    InLockstep (pure a) (pure a) Q s s' :=
  abreast_pure ⟨ha, .refl h⟩

theorem lockstep_state_bind {f f' : State → Effect β}
    (h : InLockstepIfQuiet (f s) (f' s') R s s') :
    InLockstepIfQuiet (state >>= f) (state >>= f') R s s' := h

theorem lockstep_share (h : s.graph.Twins s'.graph) {key key' : Key} (hsame : key.same key' = true)
    (hshapes : key.shape.SameButCases key'.shape) (htakes : s.graph.Takes key.shape)
    (hint : Option NameHint) :
    InLockstep (build fun g => g.share key key.shape hint)
      (build fun g => g.share key' key'.shape hint) (fun r t => t.graph.Has r) s s' := by
  obtain ⟨hhandle, htwins⟩ := h.share hsame hshapes htakes hint hint
  obtain ⟨_, -, hgives⟩ := Graph.gives_share h.sound htakes hint
  exact abreast_build hhandle ⟨hgives.has, htwins, hgives.grows, Nat.le_refl _, Nat.le_refl _⟩

theorem lockstep_primitive (h : s.graph.Twins s'.graph) (kind : Primitive) :
    InLockstep (build fun g => g.addPrimitive kind) (build fun g => g.addPrimitive kind)
      (fun r t => t.graph.Has r) s s' :=
  lockstep_share h (Key.same_refl (.primitive kind)) (.same _) ⟨nofun, trivial⟩ none

theorem lockstep_collect {as : List α} {f f' : α → Effect Handle} (h : s.graph.Twins s'.graph)
    (hf : ∀ a ∈ as, ∀ t t' : State, t.graph.Twins t'.graph →
      InLockstep (f a) (f' a) (fun r t => t.graph.Has r) t t') :
    InLockstep (collect (as.map f)) (collect (as.map f')) (fun _ _ => True) s s' := by
  induction as generalizing s s' with
  | nil => exact lockstep_pure h trivial
  | cons a rest ih =>
    apply Abreast.next (hf a (List.mem_cons_self ..) s s' h)
    rintro r t t' ⟨-, hstep⟩
    apply Abreast.next (ih hstep.twins fun a hmem => hf a (List.mem_cons_of_mem _ hmem))
    rintro found u u' ⟨-, hstep'⟩
    exact abreast_pure ⟨trivial, hstep.trans hstep'⟩

end Effect

namespace Unification

open Effect

theorem eq_nil_iff_of_mem_iff {hs hs' : List Handle} (h : ∀ k, k ∈ hs ↔ k ∈ hs') :
    hs = [] ↔ hs' = [] := by
  rw [List.eq_nil_iff_forall_not_mem, List.eq_nil_iff_forall_not_mem]
  exact forall_congr' fun k => not_congr (h k)

def Lockstep (unify : Unify) : Prop :=
  ∀ {types types'} hint loc {s s' : State}, s.graph.Twins s'.graph → (∀ h ∈ types, s.graph.Has h) →
    (∀ h, h ∈ types ↔ h ∈ types') → types ≠ [] →
    InLockstepIfQuiet (unify types hint loc) (unify types' hint loc) (fun r t => t.graph.Has r) s s'

section

variable {leaves leaves' : List Leaf} {s s' : State} {unify : Unify}

theorem lockstep_primitives (h : s.graph.Twins s'.graph)
    (hshows : ∀ kind, Leaves.shows leaves kind = Leaves.shows leaves' kind)
    (kinds : List Primitive) (hnull : .null ∉ kinds) :
    InLockstep (primitives leaves kinds) (primitives leaves' kinds) (fun _ _ => True) s s' := by
  have hkinds : kinds.filter (fun kind => Leaves.has leaves kind) =
      kinds.filter fun kind => Leaves.has leaves' kind := by
    apply List.filter_congr
    intro kind hmem
    have hne : kind ≠ .null := fun heq => hnull (heq ▸ hmem)
    rw [Leaves.has_eq_shows hne, Leaves.has_eq_shows hne, hshows]
  unfold primitives
  rw [hkinds]
  exact lockstep_collect h fun kind _ t t' h => lockstep_primitive h kind

theorem lockstep_collect_single {e e' : Effect Handle}
    (h : InLockstep e e' (fun r t => t.graph.Has r) s s') :
    InLockstep (collect [e]) (collect [e']) (fun _ _ => True) s s' := by
  apply Abreast.next h
  rintro r t t' ⟨-, hstep⟩
  exact abreast_pure ⟨trivial, hstep⟩

theorem lockstep_joinStrings (h : s.graph.Twins s'.graph)
    (hshows : ∀ kind, Leaves.shows leaves kind = Leaves.shows leaves' kind) (hint : NameHint) :
    InLockstep (joinStrings leaves hint) (joinStrings leaves' hint) (fun _ _ => True) s s' := by
  unfold joinStrings
  rw [Leaves.hasString_eq_shows, Leaves.hasString_eq_shows, hshows]
  split
  . exact lockstep_collect_single
      (lockstep_share h (Key.same_refl .string) (.same _) ⟨nofun, trivial⟩ (some hint))
  . exact lockstep_pure h trivial

theorem lockstep_joinEnums (h : s.graph.Twins s'.graph) {enums enums' : List (List String)}
    (hnil : enums = [] ↔ enums' = [])
    (hcases : ∀ text, (∃ cases ∈ enums, text ∈ cases) ↔ ∃ cases ∈ enums', text ∈ cases)
    (hint : NameHint) :
    InLockstep (joinEnums enums hint) (joinEnums enums' hint) (fun _ _ => True) s s' := by
  have hmem : ∀ text, text ∈ distinct enums.flatten ↔ text ∈ distinct enums'.flatten := by
    intro text
    rw [mem_distinct, mem_distinct, List.mem_flatten, List.mem_flatten]
    exact hcases text
  have hperm : (distinct enums.flatten).Perm (distinct enums'.flatten) :=
    (List.perm_ext_iff_of_nodup (nodup_distinct _) (nodup_distinct _)).2 hmem
  have hsame : Key.same (.enum (distinct enums.flatten)) (.enum (distinct enums'.flatten)) = true :=
    sameElements_iff.2 hmem
  unfold joinEnums
  by_cases hnone : enums = []
  . rw [if_pos hnone, if_pos (hnil.1 hnone)]
    exact lockstep_pure h trivial
  . rw [if_neg hnone, if_neg (mt hnil.2 hnone)]
    exact lockstep_collect_single
      (lockstep_share h hsame (.enum hperm) ⟨nofun, trivial⟩ (some hint))

theorem lockstep_joinArrays (hunify : Lockstep unify) (h : s.graph.Twins s'.graph)
    {items items' : List Handle} (hitems : ∀ k, k ∈ items ↔ k ∈ items')
    (hhas : ∀ k ∈ items, s.graph.Has k) (hint : NameHint) (loc : Location) :
    InLockstepIfQuiet (joinArrays unify items hint loc) (joinArrays unify items' hint loc)
      (fun _ _ => True) s s' := by
  have hnil : items = [] ↔ items' = [] := eq_nil_iff_of_mem_iff hitems
  unfold joinArrays
  by_cases hnone : items = []
  . rw [if_pos hnone, if_pos (hnil.1 hnone)]
    exact (lockstep_pure h trivial).ifQuiet
  . rw [if_neg hnone, if_neg (mt hnil.2 hnone)]
    apply (hunify _ _ h hhas hitems hnone).next (fun _ _ => Nat.le_refl _)
      (fun _ _ => Nat.le_refl _)
    intro joined t t' hjoined hstep
    have htakes : t.graph.Takes (.array joined) := ⟨List.forall_mem_singleton.2 hjoined, trivial⟩
    exact (lockstep_collect_single (lockstep_share hstep.twins (Key.same_refl (.array joined))
      (.same _) htakes none)).ifQuiet

theorem lockstep_joinMaps (hunify : Lockstep unify) (h : s.graph.Twins s'.graph)
    {maps maps' : List Handle} (hnodup : maps.Nodup) (hnodup' : maps'.Nodup)
    (hmaps : ∀ k, k ∈ maps ↔ k ∈ maps') (hkind : ∀ k ∈ maps, s.graph.kind? k = some .map)
    (hint : NameHint) (loc : Location) :
    InLockstepIfQuiet (joinMaps unify maps hint loc) (joinMaps unify maps' hint loc)
      (fun _ _ => True) s s' := by
  have hlength : maps.length = maps'.length :=
    ((List.perm_ext_iff_of_nodup hnodup hnodup').2 hmaps).length_eq
  match maps, maps', hlength with
  | [], [], _ => exact (lockstep_pure h trivial).ifQuiet
  | [map], [map'], _ =>
    obtain rfl : map = map' := List.mem_singleton.1 ((hmaps map).1 (List.mem_singleton_self _))
    exact (lockstep_pure h trivial).ifQuiet
  | map :: map₂ :: rest, map' :: map₂' :: rest', _ =>
    have hvalues := fun k => h.mem_valuesRead hmaps (k := k)
    have hhas : ∀ values ∈ (s.graph.valuesRead (map :: map₂ :: rest)).map Prod.snd,
        s.graph.Has values := fun _ => h.sound.has_of_mem_valuesRead
    have hsome : (s.graph.valuesRead (map :: map₂ :: rest)).map Prod.snd ≠ [] :=
      Graph.valuesRead_ne_nil (List.mem_cons_self ..) (hkind map (List.mem_cons_self ..))
    have hnote : InLockstep (note (.joined loc (s.graph.valuesRead (map :: map₂ :: rest))))
        (note (.joined loc (s'.graph.valuesRead (map' :: map₂' :: rest')))) (fun _ _ => True)
        s s' :=
      .result ⟨trivial, h, .refl _, Nat.le_of_eq (s.merges_joined _ _).symm,
        Nat.le_of_eq (s'.merges_joined _ _).symm⟩
    unfold joinMaps
    dsimp only
    apply lockstep_state_bind
    apply hnote.next
    intro _ t t' _ hstep
    have hthere := fun k hmem => hstep.grows.has k (hhas k hmem)
    apply (hunify _ _ hstep.twins hthere hvalues hsome).next (fun _ _ => Nat.le_refl _)
      (fun _ _ => Nat.le_refl _)
    intro joined u u' hjoined hstep
    have htakes : u.graph.Takes (Key.map joined).shape :=
      ⟨List.forall_mem_singleton.2 hjoined, trivial⟩
    exact (lockstep_collect_single (lockstep_share hstep.twins (Key.same_refl (.map joined))
      (.same _) htakes none)).ifQuiet

theorem eq_of_quiet_joinRecords (hmerges : KeepsMerges unify) {record record' : Handle}
    {rest : List Handle} {hint : NameHint} {loc : Location}
    (hquiet : Quiet s ((joinRecords unify (record :: record' :: rest) hint loc).run s)) :
    (joinRecords unify (record :: record' :: rest) hint loc).run s =
      (.error (.unresolvedRecursion .unfinishedRecord loc), s) := by
  have hends := merges_joinRecords hmerges record record' rest hint loc s
  have hle := hquiet.merges_le
  rcases hrun : (joinRecords unify (record :: record' :: rest) hint loc).run s with ⟨fault | a, t⟩
  . rw [hrun] at hle
    rcases hends.error hrun with hlt | ⟨rfl, rfl⟩
    . exact absurd hle (Nat.not_le_of_lt hlt)
    . rfl
  . rw [hrun] at hle
    exact absurd hle (Nat.not_le_of_lt (hends.ok hrun))

theorem lockstep_joinRecords (hmerges : KeepsMerges unify) (h : s.graph.Twins s'.graph)
    {records records' : List Handle} (hnodup : records.Nodup) (hnodup' : records'.Nodup)
    (hrecords : ∀ k, k ∈ records ↔ k ∈ records') (hint : NameHint) (loc : Location) :
    InLockstepIfQuiet (joinRecords unify records hint loc) (joinRecords unify records' hint loc)
      (fun _ _ => True) s s' := by
  have hlength : records.length = records'.length :=
    ((List.perm_ext_iff_of_nodup hnodup hnodup').2 hrecords).length_eq
  match records, records', hlength with
  | [], [], _ => exact (lockstep_pure h trivial).ifQuiet
  | [record], [record'], _ =>
    obtain rfl : record = record' :=
      List.mem_singleton.1 ((hrecords record).1 (List.mem_singleton_self _))
    exact (lockstep_pure h trivial).ifQuiet
  | record :: record₂ :: rest, record' :: record₂' :: rest', _ =>
    intro hquiet hquiet'
    unfold InLockstep Abreast
    rw [eq_of_quiet_joinRecords hmerges hquiet, eq_of_quiet_joinRecords hmerges hquiet']
    exact .fault h

theorem merges_le_otherMembers (hmerges : KeepsMerges unify) (hint : NameHint) (loc : Location)
    (object : List Handle) (t : State) :
    t.merges ≤ ((otherMembers unify leaves hint loc object).run t).2.merges :=
  ((upkeep_merges t.merges).alike_otherMembers (hmerges t.merges) (fun _ _ => trivial) hint loc
    (fun _ _ => trivial) (Nat.le_refl _)).final (fun _ _ h => h.2) fun _ _ => id

section

variable {g g' : Graph} {types types' : List Handle} (hunify : Lockstep unify)
  (hmerges : KeepsMerges unify) (hg : g.Twins g') (hhas : ∀ h ∈ types, g.Has h)
  (hset : ∀ h, h ∈ types ↔ h ∈ types')

include hunify hg hhas hset

theorem lockstep_otherMembers (h : s.graph.Twins s'.graph) (hgrows : g.Grows s.graph)
    (hint : NameHint) (loc : Location) (object : List Handle) :
    InLockstepIfQuiet (otherMembers unify (g.leaves types) hint loc object)
      (otherMembers unify (g'.leaves types') hint loc object)
      (fun _ _ => True) s s' := by
  have hshows := hg.shows_leaves hset hhas
  unfold otherMembers
  have henums : Leaves.enums (g.leaves types) = [] ↔ Leaves.enums (g'.leaves types') = [] := by
    rw [← not_iff_not, ← ne_eq, ← ne_eq, ← Leaves.shows_enum_iff, ← Leaves.shows_enum_iff, hshows]
  apply (lockstep_primitives h hshows _ (by decide)).next
  intro scalars t₁ t₁' _ h₁
  apply (lockstep_joinStrings h₁.twins hshows hint).next
  intro strings t₂ t₂' _ h₂
  apply (lockstep_primitives h₂.twins hshows _ (by decide)).next
  intro moments t₃ t₃' _ h₃
  apply (lockstep_joinEnums h₃.twins henums (fun _ => hg.mem_case hset hhas) hint).next
  intro enums t₄ t₄' _ h₄
  have hgrown := hgrows.trans (h₁.trans (h₂.trans (h₃.trans h₄))).grows
  apply (lockstep_joinArrays hunify h₄.twins (fun _ => hg.mem_items hset hhas)
    (fun items hmem => hgrown.has items (hg.sound.has_of_mem_items hmem)) hint loc).next
    (fun _ _ => Nat.le_refl _) (fun _ _ => Nat.le_refl _)
  intro arrays t₅ t₅' _ h₅
  exact (lockstep_pure h₅.twins trivial).ifQuiet

include hmerges

theorem lockstep_members (h : s.graph.Twins s'.graph) (hgraph : s.graph = g) (hint : NameHint)
    (loc : Location) :
    InLockstepIfQuiet (members unify (g.leaves types) hint loc)
      (members unify (g'.leaves types') hint loc) (fun _ _ => True) s s' := by
  have hmaps := fun k => hg.mem_maps hset hhas (k := k)
  have hrecords := fun k => hg.mem_records hset hhas (k := k)
  have hnil : Leaves.maps (g.leaves types) = [] ↔ Leaves.maps (g'.leaves types') = [] :=
    eq_nil_iff_of_mem_iff hmaps
  have hkind : ∀ k ∈ Leaves.maps (g.leaves types), s.graph.kind? k = some .map := by
    intro k hmem
    rw [hgraph]
    exact ((hg.sound.mem_maps_leaves hhas).1 hmem).2
  have hgrows : g.Grows s.graph := hgraph ▸ .refl g
  rw [members_eq, members_eq]
  by_cases hnone : Leaves.maps (g.leaves types) = []
  . rw [if_pos hnone, if_pos (hnil.1 hnone)]
    apply (lockstep_joinRecords hmerges h (nodup_distinct _) (nodup_distinct _) hrecords hint
      loc).next (merges_le_otherMembers hmerges hint loc) (merges_le_otherMembers hmerges hint loc)
    intro object t t' _ hstep
    exact lockstep_otherMembers hunify hg hhas hset hstep.twins (hgrows.trans hstep.grows) hint loc
      object
  . rw [if_neg hnone, if_neg (mt hnil.2 hnone)]
    apply (lockstep_joinMaps hunify h (nodup_distinct _) (nodup_distinct _) hmaps hkind hint
      loc).next (merges_le_otherMembers hmerges hint loc) (merges_le_otherMembers hmerges hint loc)
    intro object t t' _ hstep
    exact lockstep_otherMembers hunify hg hhas hset hstep.twins (hgrows.trans hstep.grows) hint loc
      object

end

theorem lockstep_package (h : s.graph.Twins s'.graph) {found : List Handle}
    (hfound : Ascends s.graph.rank? 0 Shape.ranks found) (withNull : Bool) (hint : NameHint) :
    InLockstep (package found withNull hint) (package found withNull hint)
      (fun r t => t.graph.Has r) s s' := by
  have hhas : ∀ k ∈ found, s.graph.Has k := by
    intro k hmem
    obtain ⟨rank, hrank, -⟩ := hfound.exists_rank hmem
    exact Graph.has_of_rank? hrank
  have hnull : ∀ core (t t' : State), t.graph.Twins t'.graph → t.graph.Has core →
      InLockstep (if withNull = true then build fun g => g.addNullable core hint else pure core)
        (if withNull = true then build fun g => g.addNullable core hint else pure core)
        (fun r t => t.graph.Has r) t t' := by
    intro core t t' h hcore
    split
    . obtain ⟨hhandle, htwins⟩ := h.addNullable hcore hint hint
      obtain ⟨shape, hgives, -⟩ := Graph.gives_addNullable h.sound hcore hint
      exact abreast_build hhandle ⟨hgives.has, htwins, hgives.grows, Nat.le_refl _, Nat.le_refl _⟩
    . exact lockstep_pure h hcore
  unfold package
  split
  . exact lockstep_primitive h .null
  . next hsome =>
    dsimp only
    split
    . next member =>
      rw [pure_bind]
      exact hnull member s s' h (hhas member (List.mem_singleton_self _))
    . next hmany =>
      have hlength : 2 ≤ found.length := two_le_length hsome hmany
      apply Abreast.next (lockstep_share h (Key.same_refl (.union found)) (.same _)
        ⟨hhas, hlength, hfound⟩ (some hint))
      rintro core t t' ⟨hcore, hstep⟩
      exact (hnull core t t' hstep.twins hcore).mono (fun _ _ _ hr => ⟨hr.1, hstep.trans hr.2⟩)
        fun _ _ _ => id

theorem lockstep_combine {M : Moments} (hcovers : Covering M unify) (hunify : Lockstep unify)
    (hmerges : KeepsMerges unify) (h : s.graph.Twins s'.graph) {types types' : List Handle}
    (hhas : ∀ h ∈ types, s.graph.Has h) (hset : ∀ h, h ∈ types ↔ h ∈ types') (hint : NameHint)
    (loc : Location) :
    InLockstepIfQuiet (combine unify (s.graph.leaves types) hint loc)
      (combine unify (s'.graph.leaves types') hint loc) (fun r t => t.graph.Has r) s s' := by
  have hshows := h.shows_leaves hset hhas
  have hconflict :
      Leaves.records (s.graph.leaves types) ≠ [] ∧ Leaves.maps (s.graph.leaves types) ≠ [] ↔
      Leaves.records (s'.graph.leaves types') ≠ [] ∧ Leaves.maps (s'.graph.leaves types') ≠ [] := by
    rw [← Leaves.shows_record_iff, ← Leaves.shows_map_iff, ← Leaves.shows_record_iff,
      ← Leaves.shows_map_iff, hshows, hshows]
  unfold combine
  rw [Leaves.has_eq_shows (by decide), Leaves.has_eq_shows (by decide), Leaves.hasNull_eq_shows,
    Leaves.hasNull_eq_shows, hshows, hshows]
  by_cases hclash : Leaves.records (s.graph.leaves types) ≠ [] ∧
      Leaves.maps (s.graph.leaves types) ≠ []
  . rw [if_pos hclash, if_pos (hconflict.1 hclash)]
    exact InLockstep.ifQuiet (abreast_fail h)
  . rw [if_neg hclash, if_neg (mt hconflict.2 hclash)]
    split
    . exact (lockstep_primitive h .any).ifQuiet
    . have hascends : Returns (members unify (s.graph.leaves types) hint loc)
          (fun found t => Ascends t.graph.rank? 0 Shape.ranks found) s :=
        (picks_ascending hcovers _ hint loc h.sound
          (fun _ hleaf => Graph.shape?_of_mem_leaves hleaf) hclash).mono
          (fun _ _ h => h.2) fun _ _ _ => trivial
      have hpackage : ∀ withNull found (t : State),
          t.merges ≤ ((package found withNull hint).run t).2.merges := fun withNull found t =>
        ((upkeep_merges t.merges).ends_package (fun _ _ => trivial) withNull hint
          (Nat.le_refl _)).final (fun _ _ h => h.2) fun _ _ => id
      apply ((lockstep_members hunify hmerges h hhas hset h rfl hint loc).and hascends).next
        (hpackage _) (hpackage _)
      rintro found t t' ⟨-, hascends⟩ hstep
      exact (lockstep_package hstep.twins hascends _ hint).ifQuiet

theorem exists_run_of_quiet {types : List Handle} {r : Handle} {depth : Nat} {hint : NameHint}
    {loc : Location} (hs : s.graph.Sound) (hinterned : s.graph.Interned) (hr : s.graph.Has r)
    (htypes : types ≠ []) (hsame : ∀ h ∈ types, h = r)
    (hquiet : Quiet s ((unifyWithin depth types hint loc).run s)) :
    ∃ t, (unifyWithin depth types hint loc).run s = (.ok r, t) ∧ s.graph.Like False t.graph ∧
      s.merges ≤ t.merges := by
  have hsettles : Settles (unifyWithin depth)
      (fun fault _ => ∃ loc, fault = .endlessUnification loc) s.graph types r :=
    settles_same hs hinterned hr htypes hsame fun _ loc _ => ⟨loc, rfl⟩
  replace hsettles := hsettles hint loc s (.refl _)
  have hle := (keepsMerges_unifyWithin depth s.merges types hint loc s (fun _ _ => trivial)
    (Nat.le_refl _)).final (fun _ _ h => h.2) fun _ _ => id
  rcases hrun : (unifyWithin depth types hint loc).run s with ⟨fault | a, t⟩
  . obtain ⟨loc', rfl⟩ := hsettles.error hrun
    rw [hrun] at hquiet
    exact absurd rfl (hquiet.ends loc')
  . obtain ⟨rfl, hlike⟩ := hsettles.ok hrun
    rw [hrun] at hle
    exact ⟨t, rfl, hlike, hle⟩

theorem lockstep_same (h : s.graph.Twins s'.graph) {types types' : List Handle} {r : Handle}
    (hr : s.graph.Has r) (htypes : types ≠ []) (hsame : ∀ h ∈ types, h = r)
    (hset : ∀ h, h ∈ types ↔ h ∈ types') (depth : Nat) (hint : NameHint) (loc : Location) :
    InLockstepIfQuiet (unifyWithin depth types hint loc) (unifyWithin depth types' hint loc)
      (fun r t => t.graph.Has r) s s' := by
  have htypes' : types' ≠ [] := mt (eq_nil_iff_of_mem_iff hset).2 htypes
  intro hquiet hquiet'
  obtain ⟨t, hrun, hlike, hle⟩ :=
    exists_run_of_quiet h.sound h.interned hr htypes hsame hquiet
  obtain ⟨t', hrun', hlike', hle'⟩ := exists_run_of_quiet h.sound' h.interned' (h.has hr) htypes'
    (fun k hmem => hsame k ((hset k).2 hmem)) hquiet'
  unfold InLockstep Abreast
  rw [hrun, hrun']
  have htwins : t.graph.Twins t'.graph := ((h.like hlike').symm.like hlike).symm
  exact .result ⟨(hlike.shapes.has_iff r).1 hr, htwins, hlike.grows, hle, hle'⟩

theorem unifyWithin_zero {types : List Handle} (hmany : 2 ≤ types.length) (hint : NameHint)
    (loc : Location) : unifyWithin 0 types hint loc = fail (.endlessUnification loc) := by
  match types, hmany with
  | _ :: _ :: _, _ => rfl

theorem unifyWithin_succ {types : List Handle} (hmany : 2 ≤ types.length) (depth : Nat)
    (hint : NameHint) (loc : Location) :
    unifyWithin (depth + 1) types hint loc =
      state >>= fun s => combine (unifyWithin depth) (s.graph.leaves types) hint loc := by
  match types, hmany with
  | _ :: _ :: _, _ => rfl

theorem two_le_length_of_mem_iff {types types' : List Handle} (htypes : types ≠ [])
    (hset : ∀ h, h ∈ types ↔ h ∈ types') (hmany : ¬∃ r ∈ types, ∀ h ∈ types, h = r) :
    2 ≤ types.length ∧ 2 ≤ types'.length := by
  have hsingle : ∀ {hs : List Handle}, (∀ h, h ∈ types ↔ h ∈ hs) → ∀ r, hs ≠ [r] := by
    rintro hs hset r rfl
    exact hmany ⟨r, (hset r).2 (List.mem_singleton_self _),
      fun h hmem => List.mem_singleton.1 ((hset h).1 hmem)⟩
  exact ⟨two_le_length htypes (hsingle fun _ => Iff.rfl),
    two_le_length (mt (eq_nil_iff_of_mem_iff hset).2 htypes) (hsingle hset)⟩

theorem lockstep_unifyWithin (depth : Nat) : Lockstep (unifyWithin depth) := by
  induction depth with
  | zero =>
    intro types types' hint loc s s' h hhas hset htypes
    by_cases hsame : ∃ r ∈ types, ∀ h ∈ types, h = r
    . obtain ⟨r, hmem, hsame⟩ := hsame
      exact lockstep_same h (hhas r hmem) htypes hsame hset 0 hint loc
    . rw [unifyWithin_zero (two_le_length_of_mem_iff htypes hset hsame).1]
      exact fun hquiet => absurd rfl (hquiet.ends loc)
  | succ depth ih =>
    intro types types' hint loc s s' h hhas hset htypes
    by_cases hsame : ∃ r ∈ types, ∀ h ∈ types, h = r
    . obtain ⟨r, hmem, hsame⟩ := hsame
      exact lockstep_same h (hhas r hmem) htypes hsame hset (depth + 1) hint loc
    . obtain ⟨hmany, hmany'⟩ := two_le_length_of_mem_iff htypes hset hsame
      rw [unifyWithin_succ hmany, unifyWithin_succ hmany']
      apply lockstep_state_bind
      exact lockstep_combine (covering_unifyWithin .all depth) ih (keepsMerges_unifyWithin depth) h
        hhas hset hint loc

end

end Unification

end SchemaGraph
