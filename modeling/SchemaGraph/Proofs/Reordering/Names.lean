import SchemaGraph.Conversion.Descent
import SchemaGraph.Proofs.Reordering.Unification

/-!
This module contains the conversions of the names in two lists of types side by side. A name without
schemas inside makes a shared node, which does not depend on when that happens. So only the others,
for objects and arrays, have to come in the same order.
-/

namespace SchemaGraph

inductive Interleaved : List String → List String → Prop
  | nil : Interleaved [] []
  | left {name : String} {names names' : List String} (hplain : nests name = false)
    (h : Interleaved names names') : Interleaved (name :: names) names'
  | right {name : String} {names names' : List String} (hplain : nests name = false)
    (h : Interleaved names names') : Interleaved names (name :: names')
  | both {name : String} {names names' : List String} (hnests : nests name = true)
    (h : Interleaved names names') : Interleaved (name :: names) (name :: names')

theorem interleaved_of_filter_eq {names names' : List String}
    (h : names.filter nests = names'.filter nests) : Interleaved names names' := by
  induction names generalizing names' with
  | nil =>
    induction names' with
    | nil => exact .nil
    | cons name' rest' ih =>
      cases hnests : nests name' with
      | true =>
        rw [List.filter_cons_of_pos hnests] at h
        cases h
      | false =>
        rw [List.filter_cons_of_neg (Bool.eq_false_iff.1 hnests)] at h
        exact .right hnests (ih h)
  | cons name rest ih =>
    cases hnests : nests name with
    | false =>
      rw [List.filter_cons_of_neg (Bool.eq_false_iff.1 hnests)] at h
      exact .left hnests (ih h)
    | true =>
      -- The name stands in the other list, too, behind names that are passed over.
      rw [List.filter_cons_of_pos hnests] at h
      induction names' with
      | nil => cases h
      | cons name' rest' ih' =>
        cases hnests' : nests name' with
        | false =>
          rw [List.filter_cons_of_neg (Bool.eq_false_iff.1 hnests')] at h
          exact .right hnests' (ih' h)
        | true =>
          rw [List.filter_cons_of_pos hnests'] at h
          obtain ⟨rfl, hrest⟩ := List.cons.inj h
          exact .both hnests (ih hrest)

namespace Descent

open Effect

def formatKey? : Option String → Option Key
  | none => some .string
  | some "date" => some (.primitive .date)
  | some "time" => some (.primitive .time)
  | some "date-time" => some (.primitive .dateTime)
  | some _ => none

def plainKey? (schema : Schema) : String → Option Key
  | "string" => formatKey? schema.format?
  | "boolean" => some (.primitive .bool)
  | "null" => some (.primitive .null)
  | "integer" => some (.primitive .integer)
  | "number" => some (.primitive .double)
  | _ => none

theorem plainKey?_eq {schema schema' : Schema} (h : schema.format? = schema'.format?) :
    plainKey? schema = plainKey? schema' := by
  funext name
  unfold plainKey?
  rw [h]

def AsksFor (key? : Option Key) (effect : Effect Handle) : Prop :=
  match key? with
  | some key => key.shape.isPlain = true ∧
    ∃ hint, effect = build fun g => g.share key key.shape hint
  | none => ∃ fault, effect = fail fault

theorem asksFor_intoString (schema : Schema) (loc : Location) (hint : NameHint) :
    AsksFor (formatKey? schema.format?) (intoString schema loc hint) := by
  unfold intoString
  generalize schema.format? = format?
  split
  . exact ⟨rfl, some hint, rfl⟩
  . exact ⟨rfl, none, rfl⟩
  . exact ⟨rfl, none, rfl⟩
  . exact ⟨rfl, none, rfl⟩
  . next format hdate htime hdateTime =>
    have hnone : formatKey? (some format) = none := by
      unfold formatKey?
      split <;> simp_all
    rw [hnone]
    exact ⟨_, rfl⟩

theorem asksFor_intoNamed {name : String} (hplain : nests name = false) (schema : Schema)
    (convert : Convert) (loc : Location) (hint : NameHint) :
    AsksFor (plainKey? schema name) (intoNamed convert schema loc hint name) := by
  unfold intoNamed
  split
  . cases hplain
  . cases hplain
  . exact asksFor_intoString schema loc hint
  . exact ⟨rfl, none, rfl⟩
  . exact ⟨rfl, none, rfl⟩
  . exact ⟨rfl, none, rfl⟩
  . exact ⟨rfl, none, rfl⟩
  . have hnone : plainKey? schema name = none := by
      unfold plainKey?
      split <;> simp_all
    rw [hnone]
    exact ⟨_, rfl⟩

inductive Tally (schema : Schema) (R : Correspondence) (g g' : Graph) :
    List String → List Handle → List String → List Handle → Prop
  | nil : Tally schema R g g' [] [] [] []
  | left {name : String} {names names' : List String} {h : Handle} {hs ks : List Handle} {key : Key}
    (hname : nests name = false) (hkey : plainKey? schema name = some key)
    (hplain : key.shape.isPlain = true) (hshape : g.shape? h = some key.shape)
    (hrest : Tally schema R g g' names hs names' ks) :
    Tally schema R g g' (name :: names) (h :: hs) names' ks
  | right {name : String} {names names' : List String} {k : Handle} {hs ks : List Handle}
    {key : Key} (hname : nests name = false) (hkey : plainKey? schema name = some key)
    (hplain : key.shape.isPlain = true) (hshape : g'.shape? k = some key.shape)
    (hrest : Tally schema R g g' names hs names' ks) :
    Tally schema R g g' names hs (name :: names') (k :: ks)
  | both {name : String} {names names' : List String} {h k : Handle} {hs ks : List Handle}
    (hnests : nests name = true) (hR : R h k) (hrest : Tally schema R g g' names hs names' ks) :
    Tally schema R g g' (name :: names) (h :: hs) (name :: names') (k :: ks)

namespace Tally

variable {schema : Schema} {R : Correspondence} {g g' : Graph} {names names' : List String}
  {hs ks : List Handle}

theorem symm (h : Tally schema R g g' names hs names' ks) :
    Tally schema (flip R) g' g names' ks names hs := by
  induction h with
  | nil => exact .nil
  | left hname hkey hplain hshape _ ih => exact .right hname hkey hplain hshape ih
  | right hname hkey hplain hshape _ ih => exact .left hname hkey hplain hshape ih
  | both hnests hR _ ih => exact .both hnests hR ih

theorem leaves_cons {h : Handle} {shape : Shape} (hshape : g.shape? h = some shape)
    (hplain : shape.isPlain = true) (hs : List Handle) :
    g.leaves (h :: hs) = (h, shape) :: g.leaves hs := by
  have hopened := Graph.opened_succ g.size shape hshape
  cases shape with
  | primitive kind =>
    unfold Graph.leaves
    rw [List.flatMap_cons, hopened]
    rfl
  | string =>
    unfold Graph.leaves
    rw [List.flatMap_cons, hopened]
    rfl
  | _ => cases hplain

theorem filled (hm : g.Mirrors R g') (h : Tally schema R g g' names hs names' ks) :
    List.Forall₂ (Leaf.Alike R) (Leaves.filled (g.leaves hs)) (Leaves.filled (g'.leaves ks)) := by
  induction h with
  | nil => exact .nil
  | left _ hkey hplain hshape _ ih =>
    rw [leaves_cons hshape hplain]
    unfold Leaves.filled
    rw [List.filter_cons_of_neg (by simp [hplain])]
    exact ih
  | right _ hkey hplain hshape _ ih =>
    rw [leaves_cons hshape hplain]
    unfold Leaves.filled
    rw [List.filter_cons_of_neg (by simp [hplain])]
    exact ih
  | both hnests hR _ ih =>
    unfold Leaves.filled Graph.leaves
    rw [List.flatMap_cons, List.flatMap_cons, List.filter_append, List.filter_append]
    exact List.rel_append (Leaves.Alike.of_forall₂ (hm.opened_size hR)).filled ih

theorem exists_leaf (h : Tally schema R g g' names hs names' ks) {name : String} {key : Key}
    (hname : name ∈ names) (hkey : plainKey? schema name = some key) (hplain : nests name = false) :
    ∃ leaf ∈ g.leaves hs, leaf.2 = key.shape := by
  induction h with
  | nil => cases hname
  | left _ hkey' hplain' hshape _ ih =>
    rw [leaves_cons hshape hplain']
    rcases List.mem_cons.1 hname with rfl | hname
    . cases hkey.symm.trans hkey'
      exact ⟨_, List.mem_cons_self .., rfl⟩
    . obtain ⟨leaf, hleaf, hshape⟩ := ih hname
      exact ⟨leaf, List.mem_cons_of_mem _ hleaf, hshape⟩
  | right _ _ _ _ _ ih => exact ih hname
  | both hnests _ _ ih =>
    rcases List.mem_cons.1 hname with rfl | hname
    . cases hplain.symm.trans hnests
    . obtain ⟨leaf, hleaf, hshape⟩ := ih hname
      exact ⟨leaf, List.mem_append_right _ hleaf, hshape⟩

theorem origin_of_leaf (hm : g.Mirrors R g') (h : Tally schema R g g' names hs names' ks)
    {leaf : Leaf} (hleaf : leaf ∈ g.leaves hs) :
    (∃ name ∈ names, nests name = false ∧
      ∃ key, plainKey? schema name = some key ∧ leaf.2 = key.shape) ∨
      ∃ leaf' ∈ g'.leaves ks, leaf.2.Alike R leaf'.2 := by
  induction h with
  | nil => cases hleaf
  | left hname hkey hplain hshape _ ih =>
    rw [leaves_cons hshape hplain] at hleaf
    rcases List.mem_cons.1 hleaf with rfl | hleaf
    . exact Or.inl ⟨_, List.mem_cons_self .., hname, _, hkey, rfl⟩
    . rcases ih hleaf with ⟨name', hname', horigin⟩ | horigin
      . exact Or.inl ⟨name', List.mem_cons_of_mem _ hname', horigin⟩
      . exact Or.inr horigin
  | right _ _ hplain hshape _ ih =>
    rw [leaves_cons hshape hplain]
    rcases ih hleaf with horigin | ⟨leaf', hleaf', halike⟩
    . exact Or.inl horigin
    . exact Or.inr ⟨leaf', List.mem_cons_of_mem _ hleaf', halike⟩
  | both hnests hR _ ih =>
    rcases List.mem_append.1 hleaf with hleaf | hleaf
    . obtain ⟨leaf', hleaf', halike⟩ := exists_of_mem_of_forall₂ (hm.opened_size hR) hleaf
      exact Or.inr ⟨leaf', List.mem_append_left _ hleaf', halike.shape⟩
    . rcases ih hleaf with ⟨name', hname', horigin⟩ | ⟨leaf', hleaf', halike⟩
      . exact Or.inl ⟨name', List.mem_cons_of_mem _ hname', horigin⟩
      . exact Or.inr ⟨leaf', List.mem_append_right _ hleaf', halike⟩

theorem exists_plain (hm : g.Mirrors R g') (h : Tally schema R g g' names hs names' ks)
    (hnames : ∀ name ∈ names, name ∈ names') {shape : Shape} (hshape : shape.isPlain = true)
    (hleaf : ∃ leaf ∈ g.leaves hs, leaf.2 = shape) : ∃ leaf ∈ g'.leaves ks, leaf.2 = shape := by
  obtain ⟨leaf, hleaf, rfl⟩ := hleaf
  rcases h.origin_of_leaf hm hleaf with ⟨name, hname, hplain, key, hkey, heq⟩ | hother
  . rw [heq]
    exact h.symm.exists_leaf (hnames name hname) hkey hplain
  . obtain ⟨leaf', hleaf', halike⟩ := hother
    exact ⟨leaf', hleaf', (halike.eq_of_isPlain hshape).symm⟩

theorem alike_leaves (hm : g.Mirrors R g') (h : Tally schema R g g' names hs names' ks)
    (hnames : ∀ name, name ∈ names ↔ name ∈ names') :
    Leaves.Alike R (g.leaves hs) (g'.leaves ks) := by
  refine ⟨fun shape hshape => ⟨?_, ?_⟩, h.filled hm⟩
  . exact h.exists_plain hm (fun name => (hnames name).1) hshape
  . exact h.symm.exists_plain hm.symm (fun name => (hnames name).2) hshape

theorem length_left (h : Tally schema R g g' names hs names' ks) : hs.length = names.length := by
  induction h with
  | nil => rfl
  | left _ _ _ _ _ ih => exact congrArg (· + 1) ih
  | right _ _ _ _ _ ih => exact ih
  | both _ _ _ ih => exact congrArg (· + 1) ih

end Tally

structure MakesPlain (R : Correspondence) (g g' : Graph) (key : Key)
    (make : Graph → Handle × Graph) : Prop where
  plain : key.shape.isPlain = true
  evolves : g.Evolves (make g).2
  mirrors : (make g).2.Mirrors R g'
  shape : (make g).2.shape? (make g).1 = some key.shape

theorem makesPlain_share {R : Correspondence} {g g' : Graph} (hm : g.Mirrors R g') {key : Key}
    (hplain : key.shape.isPlain = true) (hint : Option NameHint) :
    MakesPlain R g g' key fun g => g.share key key.shape hint := by
  have htakes : g.Takes key.shape := Graph.takes_of_isPlain hplain
  have hfinds := Graph.finds_share hm.tidy htakes hint
  refine ⟨hplain, hfinds.grows.evolves, hm.share_left htakes hint, ?_⟩
  obtain ⟨key', hsame, hmem⟩ := hfinds.entry
  have heq : key' = key := by
    cases key with
    | primitive kind =>
      cases key' with
      | primitive kind' => rw [of_decide_eq_true hsame]
      | _ => cases hsame
    | string =>
      cases key' with
      | string => rfl
      | _ => cases hsame
    | _ => cases hplain
  have hshape := hfinds.tidy.shared hmem
  rwa [heq] at hshape

theorem exists_makesPlain {R : Correspondence} {g g' : Graph} (hm : g.Mirrors R g')
    {schema : Schema} {name : String} (hname : nests name = false)
    (hkey : plainKey? schema name ≠ none) (convert : Convert) (loc : Location) (hint : NameHint) :
    ∃ key make, plainKey? schema name = some key ∧
      intoNamed convert schema loc hint name = build make ∧ MakesPlain R g g' key make := by
  have hasks := asksFor_intoNamed hname schema convert loc hint
  obtain ⟨key, heq⟩ := Option.ne_none_iff_exists'.1 hkey
  rw [heq] at hasks
  obtain ⟨hplain, hint', hmake⟩ := hasks
  exact ⟨key, _, heq, hmake, makesPlain_share hm hplain hint'⟩

variable {p : StatePair} {schema schema' : Schema} {convert convert' : Convert} {loc : Location}
  {hint : NameHint} {names names' : List String}

theorem mirrored_collect_names (h : Interleaved names names') (hp : p.Mirrors)
    (hkeys : ∀ name ∈ names, nests name = false → plainKey? schema name ≠ none)
    (hkeys' : ∀ name ∈ names', nests name = false → plainKey? schema' name ≠ none)
    (hformat : schema.format? = schema'.format?)
    (hnested : ∀ name, nests name = true → ∀ q : StatePair, q.Mirrors →
      Mirrored q (intoNamed convert schema loc hint name)
        (intoNamed convert' schema' loc hint name) Related) :
    Mirrored p (collect (names.map fun name => intoNamed convert schema loc hint name))
      (collect (names'.map fun name => intoNamed convert' schema' loc hint name))
      fun hs ks q => Tally schema q.nodes q.left.graph q.right.graph names hs names' ks := by
  induction h generalizing p with
  | nil => exact mirrored_pure hp .nil
  | @left name names names' hname _ ih =>
    obtain ⟨key, make, hkey, heq, hmakes⟩ := exists_makesPlain hp.graph hname
      (hkeys name (List.mem_cons_self ..) hname) convert loc hint
    have hpq := hp.withGraphs (fun _ _ => id) hmakes.evolves (.refl _) hmakes.mirrors
    rw [List.map_cons, collect, heq]
    apply mirrored_build_left hpq
    rw [← bind_pure (collect (names'.map _))]
    apply (ih hpq.mirrors (fun name hmem => hkeys name (List.mem_cons_of_mem _ hmem)) hkeys').next
    intro hs ks r hqr htally
    have hshape := hqr.evolves.shape? hmakes.shape key.isOpen_shape
    exact mirrored_pure hqr.mirrors (.left hname hkey hmakes.plain hshape htally)
  | @right name names names' hname _ ih =>
    obtain ⟨key, make, hkey, heq, hmakes⟩ := exists_makesPlain hp.graph.symm hname
      (hkeys' name (List.mem_cons_self ..) hname) convert' loc hint
    have hpq := hp.withGraphs (fun _ _ => id) (.refl _) hmakes.evolves hmakes.mirrors.symm
    rw [List.map_cons, collect, heq]
    apply mirrored_build_right hpq
    rw [← bind_pure (collect (names.map _))]
    apply (ih hpq.mirrors hkeys fun name hmem => hkeys' name (List.mem_cons_of_mem _ hmem)).next
    intro hs ks r hqr htally
    have hshape := hqr.evolves'.shape? hmakes.shape key.isOpen_shape
    rw [← plainKey?_eq hformat] at hkey
    exact mirrored_pure hqr.mirrors (.right hname hkey hmakes.plain hshape htally)
  | @both name names names' hnests _ ih =>
    apply (hnested name hnests p hp).next
    intro h k q hpq hR
    apply (ih hpq.mirrors (fun name hmem => hkeys name (List.mem_cons_of_mem _ hmem))
      fun name hmem => hkeys' name (List.mem_cons_of_mem _ hmem)).next
    intro hs ks r hqr htally
    exact mirrored_pure hqr.mirrors (.both hnests (hqr.sub _ _ hR) htally)

theorem run_collect_of_fail {effects : List (Effect Handle)} {fault : Fault}
    (h : fail fault ∈ effects) (s : State) :
    ∃ fault' t, (collect effects).run s = (.error fault', t) := by
  induction effects generalizing s with
  | nil => cases h
  | cons effect rest ih =>
    unfold collect
    rw [run_bind]
    rcases List.mem_cons.1 h with rfl | h
    . exact ⟨fault, s, rfl⟩
    . rcases effect.run s with ⟨fault' | a, t⟩
      . exact ⟨fault', t, rfl⟩
      . obtain ⟨fault', u, hrest⟩ := ih h t
        dsimp only
        rw [run_bind, hrest]
        exact ⟨fault', u, rfl⟩

theorem run_collect_names_of_unknown {s : State} {name : String} (hname : name ∈ names)
    (hplain : nests name = false) (hkey : plainKey? schema name = none) :
    ∃ fault t, (collect (names.map fun name => intoNamed convert schema loc hint name)).run s =
      (.error fault, t) := by
  have hasks := asksFor_intoNamed hplain schema convert loc hint
  rw [hkey] at hasks
  obtain ⟨fault, heq⟩ := hasks
  exact run_collect_of_fail (List.mem_map.2 ⟨name, hname, heq⟩) s

end Descent

end SchemaGraph
