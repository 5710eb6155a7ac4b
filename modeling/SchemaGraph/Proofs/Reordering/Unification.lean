import SchemaGraph.Proofs.Reordering.Leaves
import SchemaGraph.Proofs.Reordering.Outcomes
import SchemaGraph.Proofs.Unification.Cover

/-!
This module contains unifications side by side. From leaves that are alike they build types that
correspond to each other, or both fail. The bounds on their depths need not be the same, because the
two graphs may have different sizes.
-/

namespace SchemaGraph

namespace Effect

variable {p : StatePair}

abbrev Related (h k : Handle) (p : StatePair) : Prop :=
  p.nodes h k

abbrev AllRelated (hs ks : List Handle) (p : StatePair) : Prop :=
  List.Forall₂ p.nodes hs ks

abbrev FieldsRelated (keys : List String) (fields fields' : Fields) (p : StatePair) : Prop :=
  fields.Related p.nodes fields' ∧ Entries.keys fields = keys

theorem mirrored_share (hp : p.Mirrors) (key key' : Key) (hint hint' : Option NameHint)
    (halike : key.shape.Alike p.nodes key'.shape) (hallows : p.left.graph.Allows key.shape) :
    Mirrored p (build fun g => g.share key key.shape hint)
      (build fun g => g.share key' key'.shape hint') Related :=
  mirrored_build hp (hp.graph.share halike hallows hint hint')

theorem mirrored_primitive (hp : p.Mirrors) (kind : Primitive) :
    Mirrored p (build fun g => g.addPrimitive kind) (build fun g => g.addPrimitive kind) Related :=
  mirrored_share hp (.primitive kind) (.primitive kind) none none (.primitive kind) trivial

theorem mirrored_push (hp : p.Mirrors) (node node' : Node)
    (halike : node.shape.Alike p.nodes node'.shape) (hallows : p.left.graph.Allows node.shape) :
    Mirrored p (build fun g => g.push node) (build fun g => g.push node') Related :=
  mirrored_build hp (hp.graph.push halike hallows)

theorem mirrored_nullable {h k : Handle} (hp : p.Mirrors) (hR : p.nodes h k) (hint : NameHint) :
    Mirrored p (build fun g => g.addNullable h hint) (build fun g => g.addNullable k hint)
      Related :=
  mirrored_build hp (hp.graph.addNullable hR hint hint)

theorem Mirrored.consField {e e' : Effect Fields} {keys : List String} {type type' : Handle}
    (h : Mirrored p e e' (FieldsRelated keys)) (hR : Related type type' p) (name : String) :
    Mirrored p (e >>= fun fields => pure ((name, type) :: fields))
      (e' >>= fun fields => pure ((name, type') :: fields)) (FieldsRelated (name :: keys)) := by
  apply h.next
  rintro fields fields' q hpq ⟨hfields, hkeys⟩
  refine mirrored_pure hpq.mirrors ⟨.cons ⟨rfl, hpq.sub _ _ hR⟩ hfields, ?_⟩
  exact congrArg (name :: ·) hkeys

theorem mirrored_collect_single {e e' : Effect Handle} (h : Mirrored p e e' Related) :
    Mirrored p (collect [e]) (collect [e']) AllRelated := by
  apply h.next
  intro h k q hpq hR
  exact mirrored_pure hpq.mirrors (.cons hR .nil)

end Effect

namespace Unification

open Effect

def Mirroring (unify unify' : Unify) : Prop :=
  ∀ (p : StatePair) hs ks hint loc, p.Mirrors → AllRelated hs ks p →
    Mirrored p (unify hs hint loc) (unify' ks hint loc) Related

variable {p : StatePair} {unify unify' : Unify} {leaves leaves' : List Leaf}
  {R : Correspondence} {g g' : Graph}

theorem mirrored_primitives (hp : p.Mirrors) (h : Leaves.Alike p.nodes leaves leaves')
    (kinds : List Primitive) :
    Mirrored p (primitives leaves kinds) (primitives leaves' kinds) AllRelated := by
  have hkinds : kinds.filter (fun kind => Leaves.has leaves kind) =
      kinds.filter fun kind => Leaves.has leaves' kind := by
    congr 1
    funext kind
    exact h.has kind
  unfold primitives
  rw [hkinds]
  apply mirrored_collect hp
  rw [List.forall₂_map_left_iff, List.forall₂_map_right_iff, List.forall₂_same]
  exact fun kind _ q hq => mirrored_primitive hq kind

theorem mirrored_joinStrings (hp : p.Mirrors) (h : Leaves.Alike p.nodes leaves leaves')
    (hint : NameHint) :
    Mirrored p (joinStrings leaves hint) (joinStrings leaves' hint) AllRelated := by
  unfold joinStrings
  rw [h.hasString]
  split
  . have hshare := mirrored_share hp .string .string (some hint) (some hint) .string trivial
    exact mirrored_collect_single hshare
  . exact mirrored_pure hp .nil

theorem mirrored_joinEnums (hp : p.Mirrors) {enums enums' : List (List String)}
    (h : List.Forall₂ (fun cases cases' => ∀ text, text ∈ cases ↔ text ∈ cases') enums enums')
    (hint : NameHint) :
    Mirrored p (joinEnums enums hint) (joinEnums enums' hint) AllRelated := by
  have hcases : ∀ text, text ∈ distinct enums.flatten ↔ text ∈ distinct enums'.flatten := by
    intro text
    rw [mem_distinct, mem_distinct, List.mem_flatten, List.mem_flatten]
    constructor
    . rintro ⟨cases, hmem, htext⟩
      obtain ⟨cases', hmem', hsame⟩ := exists_of_mem_of_forall₂ h hmem
      exact ⟨cases', hmem', (hsame text).1 htext⟩
    . rintro ⟨cases', hmem', htext⟩
      obtain ⟨cases, hmem, hsame⟩ := exists_of_mem_of_forall₂ h.flip hmem'
      exact ⟨cases, hmem, (hsame text).2 htext⟩
  unfold joinEnums
  cases h with
  | nil => exact mirrored_pure hp .nil
  | cons _ _ =>
    rw [if_neg (List.cons_ne_nil _ _), if_neg (List.cons_ne_nil _ _)]
    exact mirrored_collect_single (mirrored_share hp (.enum _) (.enum _) (some hint) (some hint)
      (.enum hcases) trivial)

theorem mirrored_joinArrays (hunify : Mirroring unify unify') (hp : p.Mirrors)
    {items items' : List Handle} (h : AllRelated items items' p) (hint : NameHint)
    (loc : Location) :
    Mirrored p (joinArrays unify items hint loc) (joinArrays unify' items' hint loc)
      AllRelated := by
  unfold joinArrays
  cases h with
  | nil => exact mirrored_pure hp .nil
  | cons hfirst hrest =>
    rw [if_neg (List.cons_ne_nil _ _), if_neg (List.cons_ne_nil _ _)]
    apply (hunify p _ _ _ _ hp (.cons hfirst hrest)).next
    intro joined joined' q hpq hR
    exact mirrored_collect_single (mirrored_share hpq.mirrors (.array joined) (.array joined') none
      none (.array hR) trivial)

theorem valuesRead_related (hm : g.Mirrors R g') {maps maps' : List Handle}
    (h : List.Forall₂ R maps maps') :
    List.Forall₂ R ((g.valuesRead maps).map Prod.snd) ((g'.valuesRead maps').map Prod.snd) := by
  have hreads : List.Forall₂ (fun read read' : Handle × Handle => R read.2 read'.2)
      (g.valuesRead maps) (g'.valuesRead maps') := by
    refine List.rel_filterMap ?_ h
    intro map map' hR
    obtain ⟨shape, shape', hshape, hshape', halike⟩ := hm.alike hR
    unfold Graph.valuesOf?
    dsimp only
    rw [hshape, hshape']
    cases halike with
    | openMap => exact .some hR
    | map hvalues => exact .some hvalues
    | _ => exact .none
  rwa [List.forall₂_map_left_iff, List.forall₂_map_right_iff]

theorem mirrored_joinMaps (hunify : Mirroring unify unify') (hp : p.Mirrors)
    {maps maps' : List Handle} (h : AllRelated maps maps' p) (hint : NameHint) (loc : Location) :
    Mirrored p (joinMaps unify maps hint loc) (joinMaps unify' maps' hint loc) AllRelated := by
  unfold joinMaps
  match maps, maps', h with
  | [], [], _ => exact mirrored_pure hp .nil
  | [map], [map'], h => exact mirrored_pure hp h
  | map :: map₂ :: rest, map' :: map₂' :: rest', h =>
    apply mirrored_state_bind
    have hnote := hp.journal
      (.joined loc (p.left.graph.valuesRead (map :: map₂ :: rest)) :: p.left.journal)
      (.joined loc (p.right.graph.valuesRead (map' :: map₂' :: rest')) :: p.right.journal)
    apply mirrored_change_bind hnote
    apply (hunify _ _ _ _ _ hnote.mirrors (valuesRead_related hp.graph h)).next
    intro joined joined' q hpq hR
    exact mirrored_collect_single (mirrored_share hpq.mirrors (.map joined) (.map joined') none none
      (.map hR) trivial)

theorem agree_filledFields (hm : g.Mirrors R g') (loc : Location) {records records' : List Handle}
    (h : List.Forall₂ R records records') :
    Agree (List.Forall₂ (Entries.Related R)) (filledFields g loc records)
      (filledFields g' loc records') := by
  induction h with
  | nil => exact .values .nil
  | cons hR _ ih =>
    obtain ⟨shape, shape', hshape, hshape', halike⟩ := hm.alike hR
    unfold filledFields
    rw [hshape, hshape']
    cases halike with
    | record hfields => exact ih.map fun _ _ hrest => .cons hfields hrest
    | _ => exact .faults _ _

theorem related_gatherField {found found' : Entries String (List Handle)}
    (h : found.Related (List.Forall₂ R) found') {field field' : String × Handle}
    (hfield : field.1 = field'.1 ∧ R field.2 field'.2) :
    (RecordMerge.gatherField found field).Related (List.Forall₂ R)
      (RecordMerge.gatherField found' field') := by
  obtain ⟨name, type⟩ := field
  obtain ⟨name', type'⟩ := field'
  obtain ⟨rfl, hR⟩ := hfield
  apply h.put
  apply List.rel_append _ (.cons hR .nil)
  dsimp only
  match found.get? name, found'.get? name, h.get? name with
  | _, _, .some htypes => exact htypes
  | _, _, .none => exact .nil

theorem related_gather {all all' : List Fields} (h : List.Forall₂ (Entries.Related R) all all') :
    (RecordMerge.gather all).Related (List.Forall₂ R) (RecordMerge.gather all') := by
  refine List.rel_foldl (P := Entries.Related (List.Forall₂ R)) ?_ .nil h
  intro found found' hfound fields fields' hfields
  refine List.rel_foldl (P := Entries.Related (List.Forall₂ R)) ?_ hfound hfields
  exact fun _ _ hfound _ _ hfield => related_gatherField hfound hfield

theorem mirrored_mergeGathered (hunify : Mirroring unify unify') (hp : p.Mirrors) (count : Nat)
    (loc : Location) {found found' : Entries String (List Handle)}
    (h : found.Related (List.Forall₂ p.nodes) found') :
    Mirrored p (RecordMerge.mergeGathered (unifier unify) count loc found)
      (RecordMerge.mergeGathered (unifier unify') count loc found') (FieldsRelated found.keys) := by
  induction found generalizing p found' with
  | nil =>
    cases h
    exact mirrored_pure hp ⟨.nil, rfl⟩
  | cons entry rest ih =>
    obtain ⟨name, types⟩ := entry
    obtain ⟨⟨_, types'⟩, rest', ⟨rfl, htypes⟩, hrest, rfl⟩ := List.forall₂_cons_left_iff.1 h
    have hfields : ∀ q : StatePair, p.GoesTo q → Mirrored q
        (RecordMerge.mergeGathered (unifier unify) count loc rest)
        (RecordMerge.mergeGathered (unifier unify') count loc rest')
        (FieldsRelated (Entries.keys rest)) :=
      fun q hpq => ih hpq.mirrors
        (hrest.imp fun _ _ hentry => And.imp_right (List.Forall₂.imp hpq.sub) hentry)
    unfold RecordMerge.mergeGathered
    apply (hunify p _ _ _ _ hp htypes).next
    intro joined joined' q hpq hR
    dsimp only
    rw [htypes.length_eq]
    split
    . have hnullable : Mirrored q (liftM ((unifier unify).nullable joined (.inferred name)))
          (liftM ((unifier unify').nullable joined' (.inferred name))) Related :=
        mirrored_nullable hpq.mirrors hR (.inferred name)
      apply hnullable.next
      intro type type' r hqr hR'
      exact (hfields r (hpq.trans hqr)).consField hR' name
    . rw [pure_bind, pure_bind]
      exact (hfields q hpq).consField hR name

theorem mirrored_joinRecords (hunify : Mirroring unify unify') (hp : p.Mirrors)
    {records records' : List Handle} (h : AllRelated records records' p) (hint : NameHint)
    (loc : Location) :
    Mirrored p (joinRecords unify records hint loc) (joinRecords unify' records' hint loc)
      AllRelated := by
  unfold joinRecords
  match records, records', h with
  | [], [], _ => exact mirrored_pure hp .nil
  | [record], [record'], h => exact mirrored_pure hp h
  | record :: record₂ :: rest, record' :: record₂' :: rest', h =>
    apply mirrored_state_bind
    apply mirrored_check_bind (agree_filledFields hp.graph loc h)
    intro all all' hall
    have hnote := hp.journal (.merged loc (record :: record₂ :: rest) :: p.left.journal)
      (.merged loc (record' :: record₂' :: rest') :: p.right.journal)
    apply mirrored_change_bind hnote
    unfold RecordMerge.merge
    rw [hall.length_eq]
    apply (mirrored_mergeGathered hunify hnote.mirrors _ loc (related_gather hall)).next
    rintro fields fields' q hpq ⟨hfields, hkeys⟩
    have hnodup : (Entries.keys fields).Nodup := by
      rw [hkeys]
      exact RecordMerge.nodup_keys_gather all
    exact mirrored_collect_single (mirrored_push hpq.mirrors ⟨.record (.filled fields), some hint⟩
      ⟨.record (.filled fields'), some hint⟩ (.record hfields) hnodup)

theorem mirrored_otherMembers (hunify : Mirroring unify unify') (hp : p.Mirrors)
    (h : Leaves.Alike p.nodes leaves leaves') {object object' : List Handle}
    (hobject : AllRelated object object' p) (hint : NameHint) (loc : Location) :
    Mirrored p (otherMembers unify leaves hint loc object)
      (otherMembers unify' leaves' hint loc object') AllRelated := by
  unfold otherMembers
  apply (mirrored_primitives hp h _).next
  intro scalars scalars' q₁ h₁ hscalars
  apply (mirrored_joinStrings h₁.mirrors (h.imp h₁.sub) hint).next
  intro strings strings' q₂ h₂ hstrings
  have h₁₂ := h₁.trans h₂
  apply (mirrored_primitives h₂.mirrors (h.imp h₁₂.sub) _).next
  intro moments moments' q₃ h₃ hmoments
  have h₁₃ := h₁₂.trans h₃
  apply (mirrored_joinEnums h₃.mirrors (h.imp h₁₃.sub).enums hint).next
  intro enums enums' q₄ h₄ henums
  have h₁₄ := h₁₃.trans h₄
  apply (mirrored_joinArrays hunify h₄.mirrors (h.imp h₁₄.sub).items hint loc).next
  intro arrays arrays' q₅ h₅ harrays
  have h₄₅ := h₅.sub
  have h₃₅ := (h₄.trans h₅).sub
  have h₂₅ := (h₃.trans (h₄.trans h₅)).sub
  have h₁₅ := (h₂.trans (h₃.trans (h₄.trans h₅))).sub
  apply mirrored_pure h₅.mirrors
  refine List.rel_append (List.rel_append (List.rel_append (List.rel_append
    (List.rel_append ?_ ?_) ?_) ?_) ?_) harrays
  . exact hobject.imp (h₁₄.trans h₅).sub
  . exact hscalars.imp h₁₅
  . exact hstrings.imp h₂₅
  . exact hmoments.imp h₃₅
  . exact henums.imp h₄₅

theorem mirrored_members (hunify : Mirroring unify unify') (hp : p.Mirrors)
    (h : Leaves.Alike p.nodes leaves leaves') (hint : NameHint) (loc : Location) :
    Mirrored p (members unify leaves hint loc) (members unify' leaves' hint loc) AllRelated := by
  have hmaps := h.maps hp.graph.unique
  have hrecords := h.records hp.graph.unique
  rw [members_eq, members_eq]
  by_cases hnone : Leaves.maps leaves = []
  . rw [if_pos hnone, if_pos ((eq_nil_iff_of_forall₂ hmaps).1 hnone)]
    apply (mirrored_joinRecords hunify hp hrecords hint loc).next
    intro object object' q hpq hobject
    exact mirrored_otherMembers hunify hpq.mirrors (h.imp hpq.sub) hobject hint loc
  . rw [if_neg hnone, if_neg (hnone ∘ (eq_nil_iff_of_forall₂ hmaps).2)]
    apply (mirrored_joinMaps hunify hp hmaps hint loc).next
    intro object object' q hpq hobject
    exact mirrored_otherMembers hunify hpq.mirrors (h.imp hpq.sub) hobject hint loc

theorem mirrored_package (hp : p.Mirrors) {found found' : List Handle}
    (h : AllRelated found found' p)
    (hascends : Ascends p.left.graph.rank? 0 Shape.ranks found) (withNull : Bool)
    (hint : NameHint) :
    Mirrored p (package found withNull hint) (package found' withNull hint) Related := by
  have hnull : ∀ core core' q, p.GoesTo q → Related core core' q →
      Mirrored q (if withNull then build fun g => g.addNullable core hint else pure core)
        (if withNull then build fun g => g.addNullable core' hint else pure core') Related := by
    intro core core' q hpq hR
    split
    . exact mirrored_nullable hpq.mirrors hR hint
    . exact mirrored_pure hpq.mirrors hR
  unfold package
  match found, found', h with
  | [], [], _ => exact mirrored_primitive hp .null
  | [member], [member'], .cons hR _ =>
    dsimp only
    rw [pure_bind, pure_bind]
    exact hnull member member' p (.refl hp) hR
  | first :: second :: rest, first' :: second' :: rest', h =>
    dsimp only
    have hunion := mirrored_share hp (.union (first :: second :: rest))
      (.union (first' :: second' :: rest')) (some hint) (some hint) (.union h)
      ⟨Nat.le_add_left _ _, hascends⟩
    exact Mirrored.next hunion hnull

theorem mirrored_combine {M : Moments} (hunify : Mirroring unify unify')
    (hcovering : Covering M unify) (hp : p.Mirrors) (h : Leaves.Alike p.nodes leaves leaves')
    (hleaves : ∀ leaf ∈ leaves, p.left.graph.shape? leaf.1 = some leaf.2 ∧
      ∀ members, leaf.2 ≠ .union members) (hint : NameHint) (loc : Location) :
    Mirrored p (combine unify leaves hint loc) (combine unify' leaves' hint loc) Related := by
  have hmixed : Leaves.records leaves ≠ [] ∧ Leaves.maps leaves ≠ [] ↔
      Leaves.records leaves' ≠ [] ∧ Leaves.maps leaves' ≠ [] :=
    and_congr (not_congr (eq_nil_iff_of_forall₂ (h.records hp.graph.unique)))
      (not_congr (eq_nil_iff_of_forall₂ (h.maps hp.graph.unique)))
  unfold combine
  by_cases hboth : Leaves.records leaves ≠ [] ∧ Leaves.maps leaves ≠ []
  . rw [if_pos hboth, if_pos (hmixed.1 hboth)]
    exact mirrored_fail _ _
  . rw [if_neg hboth, if_neg (hboth ∘ hmixed.2), h.has]
    split
    . exact mirrored_primitive hp .any
    . have hsole : Leaves.maps leaves ≠ [] → Leaves.records leaves = [] :=
        fun hmaps => not_not.1 fun hrecords => hboth ⟨hrecords, hmaps⟩
      have hbuilds := builds_members hcovering leaves hint loc hp.graph.tidy.toSound hleaves hsole
      rw [← h.hasNull]
      apply ((mirrored_members hunify hp h hint loc).left hbuilds).next
      rintro found found' q hpq ⟨hfound, hadded, -⟩
      exact mirrored_package hpq.mirrors hfound hadded.ascends _ hint

theorem mirrored_unifyWithin {depth depth' : Nat}
    (hunify : ∀ inner inner', depth = inner + 1 → depth' = inner' + 1 →
      Mirroring (unifyWithin inner) (unifyWithin inner')) (hp : p.Mirrors) {hs ks : List Handle}
    (hmany : 2 ≤ hs.length) (hmany' : 2 ≤ ks.length)
    (h : Leaves.Alike p.nodes (p.left.graph.leaves hs) (p.right.graph.leaves ks))
    (hint : NameHint) (loc : Location) :
    Mirrored p (unifyWithin depth hs hint loc) (unifyWithin depth' ks hint loc) Related := by
  match hs, ks with
  | first :: second :: rest, first' :: second' :: rest' =>
    cases depth with
    | zero => exact .endless rfl
    | succ inner =>
      cases depth' with
      | zero => exact .endless' rfl
      | succ inner' =>
        apply mirrored_state_bind
        exact mirrored_combine (hunify inner inner' rfl rfl) (covering_unifyWithin .all inner) hp h
          (fun _ hleaf => Graph.shape?_of_mem_leaves hleaf) hint loc

theorem mirroring_unifyWithin (depth depth' : Nat) :
    Mirroring (unifyWithin depth) (unifyWithin depth') := by
  induction depth using Nat.strongRecOn generalizing depth' with
  | ind depth ih =>
    intro p hs ks hint loc hp h
    match hs, ks, h with
    | [], [], _ =>
      unfold unifyWithin
      exact mirrored_fail _ _
    | [h], [k], .cons hR _ =>
      rw [unifyWithin_single, unifyWithin_single]
      exact mirrored_pure hp hR
    | _ :: _ :: _, _ :: _ :: _, h =>
      refine mirrored_unifyWithin ?_ hp (Nat.le_add_left _ _) (Nat.le_add_left _ _)
        (hp.graph.alike_leaves h) hint loc
      intro inner inner' hdepth _
      exact ih inner (by omega) inner'

theorem mirroring_unify : Mirroring Unification.unify Unification.unify := by
  intro p hs ks hint loc hp h
  unfold Unification.unify
  apply mirrored_state_bind
  exact mirroring_unifyWithin _ _ p hs ks hint loc hp h

theorem mirrored_unify (hp : p.Mirrors) {hs ks : List Handle} (hmany : 2 ≤ hs.length)
    (hmany' : 2 ≤ ks.length)
    (h : Leaves.Alike p.nodes (p.left.graph.leaves hs) (p.right.graph.leaves ks))
    (hint : NameHint) (loc : Location) :
    Mirrored p (Unification.unify hs hint loc) (Unification.unify ks hint loc) Related := by
  unfold Unification.unify
  apply mirrored_state_bind
  exact mirrored_unifyWithin (fun _ _ _ _ => mirroring_unifyWithin _ _) hp hmany hmany' h hint loc

end Unification

end SchemaGraph
