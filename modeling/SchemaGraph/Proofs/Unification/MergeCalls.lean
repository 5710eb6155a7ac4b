import SchemaGraph.Proofs.Unification.Gathering

/-!
This module contains the calls that a merge of records makes to its unifier. For each field that a
record has it asks once for the unification of the types found for the field, in order of first
appearance, and right after that for the nullable of the result if a record lacks the field. The
first unification that fails is the last call, and its fault is the outcome. This holds for every
unifier, whatever its state, its answers and its faults are.
-/

namespace SchemaGraph

inductive UnifierCall (ε : Type) where
  | unify (types : List Handle) (hint : NameHint) (loc : Location) (answer : Except ε Handle)
  | nullable (type : Handle) (hint : NameHint) (answer : Handle)

/--
The same unifier that writes down the calls to it, the latest one last.
-/
def Unifier.recording {ε σ : Type} (unifier : Unifier ε σ) :
    Unifier ε (σ × List (UnifierCall ε)) where
  unify types hint loc := fun (s, calls) =>
    let (answer, s) := (unifier.unify types hint loc).run s
    (answer, s, calls ++ [.unify types hint loc answer])
  nullable type hint := fun (s, calls) =>
    let (answer, s) := (unifier.nullable type hint).run s
    (answer, s, calls ++ [.nullable type hint answer])

namespace RecordMerge

variable {ε σ α β : Type}

/--
A field of a merged record: its name, the unification of the types found for it, and the nullable of
that if it was asked for.
-/
structure Joint where
  name : String
  joined : Handle
  widened : Option Handle

namespace Joint

def field (joint : Joint) : String × Handle :=
  (joint.name, joint.widened.getD joint.joined)

def Fits (records : List Fields) (joint : Joint) : Prop :=
  joint.widened.isSome = true ↔ ∃ fields ∈ records, joint.name ∉ Entries.keys fields

def calls (loc : Location) (records : List Fields) (joint : Joint) : List (UnifierCall ε) :=
  .unify (typesOf joint.name records) (.inferred joint.name) (loc.child (.property joint.name))
      (.ok joint.joined) ::
    joint.widened.toList.map fun type => .nullable joint.joined (.inferred joint.name) type

end Joint

/--
The calls and the outcome of a merge of some records into one with the fields `names`: either all
fields are joined in order, or some of them until a unification fails.
-/
inductive Course (loc : Location) (records : List Fields) (names : List String) :
    List (UnifierCall ε) → Except ε Fields → Prop where
  | finished (joints : List Joint) (hfits : ∀ joint ∈ joints, joint.Fits records)
    (hnames : joints.map Joint.name = names) :
    Course loc records names (joints.flatMap (Joint.calls loc records))
      (.ok (joints.map Joint.field))
  | stopped (joints : List Joint) (name : String) (rest : List String) (fault : ε)
    (hfits : ∀ joint ∈ joints, joint.Fits records)
    (hnames : joints.map Joint.name ++ name :: rest = names) :
    Course loc records names
      (joints.flatMap (Joint.calls loc records) ++
        [.unify (typesOf name records) (.inferred name) (loc.child (.property name))
          (.error fault)])
      (.error fault)

def outcome (effect : ExceptT ε (StateM σ) α) (s : σ) : Except ε α × σ :=
  effect.run s

theorem outcome_bind (effect : ExceptT ε (StateM σ) α) (next : α → ExceptT ε (StateM σ) β)
    (s : σ) :
    outcome (effect >>= next) s =
      match outcome effect s with
      | (.ok a, s') => outcome (next a) s'
      | (.error fault, s') => (.error fault, s') := by
  simp only [outcome, ExceptT.run, bind, ExceptT.bind, ExceptT.mk, StateT.bind]
  rcases effect s with ⟨_ | _, _⟩ <;> rfl

theorem outcome_lift (effect : StateM σ α) (s : σ) :
    outcome (liftM effect : ExceptT ε (StateM σ) α) s = (.ok (effect.run s).1, (effect.run s).2) :=
  rfl

def joinField (unifier : Unifier ε σ) (count : Nat) (loc : Location) (name : String)
    (types : List Handle) : ExceptT ε (StateM σ) Joint := do
  let joined ← unifier.unify types (.inferred name) (loc.child (.property name))
  if types.length < count then
    let type ← liftM (unifier.nullable joined (.inferred name))
    return ⟨name, joined, some type⟩
  else return ⟨name, joined, none⟩

theorem mergeGathered_cons (unifier : Unifier ε σ) (count : Nat) (loc : Location) (name : String)
    (types : List Handle) (rest : Entries String (List Handle)) :
    mergeGathered unifier count loc ((name, types) :: rest) = (do
      let joint ← joinField unifier count loc name types
      let fields ← mergeGathered unifier count loc rest
      return joint.field :: fields) := by
  unfold joinField
  rw [mergeGathered, bind_assoc]
  refine bind_congr fun joined => ?_
  split
  . rw [bind_assoc]
    refine bind_congr fun type => ?_
    rw [pure_bind]
    rfl
  . rw [pure_bind, pure_bind]
    rfl

theorem Course.cons {loc : Location} {records : List Fields} {names : List String}
    {calls : List (UnifierCall ε)} {result : Except ε Fields} {joint : Joint}
    (hfits : joint.Fits records) (h : Course loc records names calls result) :
    Course loc records (joint.name :: names) (joint.calls loc records ++ calls)
      (result.map fun fields => joint.field :: fields) := by
  cases h with
  | finished joints hall hnames =>
    have hcons := List.forall_mem_cons.2 ⟨hfits, hall⟩
    exact .finished (joint :: joints) hcons (congrArg _ hnames)
  | stopped joints name rest fault hall hnames =>
    have hcons := List.forall_mem_cons.2 ⟨hfits, hall⟩
    rw [← List.append_assoc]
    exact .stopped (joint :: joints) name rest fault hcons (congrArg _ hnames)

section Recording

variable (unifier : Unifier ε σ) (loc : Location) {records : List Fields}

theorem outcome_unify_recording (types : List Handle) (hint : NameHint) (s : σ)
    (past : List (UnifierCall ε)) :
    outcome (unifier.recording.unify types hint loc) (s, past) =
      ((outcome (unifier.unify types hint loc) s).1, (outcome (unifier.unify types hint loc) s).2,
        past ++ [.unify types hint loc (outcome (unifier.unify types hint loc) s).1]) :=
  rfl

theorem run_nullable_recording (type : Handle) (hint : NameHint) (s : σ)
    (past : List (UnifierCall ε)) :
    (unifier.recording.nullable type hint).run (s, past) =
      (((unifier.nullable type hint).run s).1, ((unifier.nullable type hint).run s).2,
        past ++ [.nullable type hint ((unifier.nullable type hint).run s).1]) :=
  rfl

theorem outcome_joinField (hkeys : ∀ fields ∈ records, (Entries.keys fields).Nodup) (name : String)
    (s : σ) (past : List (UnifierCall ε)) :
    (∃ fault s',
      outcome (joinField unifier records.length loc name (typesOf name records)) s =
        (.error fault, s') ∧
      outcome (joinField unifier.recording records.length loc name (typesOf name records))
          (s, past) =
        (.error fault, s', past ++ [.unify (typesOf name records) (.inferred name)
          (loc.child (.property name)) (.error fault)])) ∨
    ∃ joint s', joint.name = name ∧ joint.Fits records ∧
      outcome (joinField unifier records.length loc name (typesOf name records)) s =
        (.ok joint, s') ∧
      outcome (joinField unifier.recording records.length loc name (typesOf name records))
          (s, past) =
        (.ok joint, s', past ++ joint.calls loc records) := by
  unfold joinField
  simp only [outcome_bind, outcome_unify_recording]
  rcases outcome (unifier.unify (typesOf name records) (.inferred name)
    (loc.child (.property name))) s with ⟨fault | joined, s'⟩
  . exact Or.inl ⟨fault, s', rfl, rfl⟩
  . right
    dsimp only
    by_cases hlacks : (typesOf name records).length < records.length
    . simp only [if_pos hlacks, outcome_bind, outcome_lift, run_nullable_recording,
        List.append_assoc]
      rcases (unifier.nullable joined (.inferred name)).run s' with ⟨type, s''⟩
      refine ⟨⟨name, joined, some type⟩, s'', rfl, ?_, rfl, rfl⟩
      exact iff_of_true rfl ((length_typesOf_lt_iff hkeys name).1 hlacks)
    . simp only [if_neg hlacks]
      refine ⟨⟨name, joined, none⟩, s', rfl, ?_, rfl, rfl⟩
      exact iff_of_false (by simp) (mt (length_typesOf_lt_iff hkeys name).2 hlacks)

theorem course_mergeGathered (hkeys : ∀ fields ∈ records, (Entries.keys fields).Nodup)
    {found : Entries String (List Handle)}
    (hfound : ∀ entry ∈ found, entry.2 = typesOf entry.1 records) (s : σ)
    (past : List (UnifierCall ε)) :
    ∃ result s' calls,
      outcome (mergeGathered unifier records.length loc found) s = (result, s') ∧
      outcome (mergeGathered unifier.recording records.length loc found) (s, past) =
        (result, s', past ++ calls) ∧
      Course loc records found.keys calls result := by
  induction found generalizing s past with
  | nil =>
    refine ⟨.ok [], s, [], rfl, ?_, .finished [] (by simp) rfl⟩
    rw [List.append_nil]
    rfl
  | cons entry rest ih =>
    obtain ⟨name, types⟩ := entry
    obtain ⟨htypes, hrest⟩ := List.forall_mem_cons.1 hfound
    obtain rfl : types = typesOf name records := htypes
    simp only [mergeGathered_cons, outcome_bind]
    rcases outcome_joinField unifier loc hkeys name s past with
      ⟨fault, s', hjoin, hrecording⟩ | ⟨joint, s', rfl, hfits, hjoin, hrecording⟩
    . rw [hjoin, hrecording]
      exact ⟨_, _, _, rfl, rfl, .stopped [] name (Entries.keys rest) fault (by simp) rfl⟩
    . obtain ⟨result, s'', calls, hrun, hrunning, hcourse⟩ :=
        ih hrest s' (past ++ joint.calls loc records)
      rw [hjoin, hrecording]
      dsimp only
      rw [hrun, hrunning]
      refine ⟨result.map fun fields => joint.field :: fields, s'',
        joint.calls loc records ++ calls, ?_, ?_, hcourse.cons hfits⟩
      . cases result <;> rfl
      . rw [← List.append_assoc]
        cases result <;> rfl

end Recording

/--
Take any unifier, whatever it keeps, answers and fails with, any location and any records in which
no field is declared twice. A merge with the unifier that writes down its calls ends like the merge
with the unifier itself. Let the names be those of all fields of the records, in order of first
appearance. If no unification fails, the calls are for each name, in this order, one unification of
the types of the field in those records that have it, in order of the records, by the inferred name
of the field and at its location, followed at once by a request for the nullable of the result if a
record lacks the field and by nothing otherwise. The merged record has exactly these names in this
order, each with the answer of the last call for it. Else the calls are as before up to the first
unification that fails, which is the last call of all, and its fault is the outcome.
-/
theorem calls_of_merge (unifier : Unifier ε σ) (loc : Location) (records : List Fields)
    (hkeys : ∀ fields ∈ records, (Entries.keys fields).Nodup) (s : σ) :
    ∃ result s' calls,
      outcome (merge unifier loc records) s = (result, s') ∧
      outcome (merge unifier.recording loc records) (s, []) = (result, s', calls) ∧
      Course loc records (distinct (records.flatMap Entries.keys)) calls result := by
  have hfound : ∀ entry ∈ gather records, entry.2 = typesOf entry.1 records :=
    fun entry hentry => eq_typesOf_of_mem_gather hentry
  rw [← keys_gather]
  exact course_mergeGathered unifier loc hkeys hfound s []

def countingUnifier : Unifier String Nat where
  unify types hint _ := fun count =>
    (if hint.text = "odd" then .error "no type" else .ok (types.getLastD ⟨0⟩), count + 1)
  nullable _ _ := fun count => (⟨99⟩, count + 1)

def oddRecords : List Fields :=
  [[("a", ⟨0⟩), ("b", ⟨1⟩)], [("odd", ⟨2⟩), ("a", ⟨3⟩)], [("last", ⟨4⟩), ("odd", ⟨5⟩)]]

theorem calls_of_merge_odd :
    (∀ fields ∈ oddRecords, (Entries.keys fields).Nodup) ∧
      outcome (merge countingUnifier .root oddRecords) 0 = (.error "no type", 5) ∧
      ∃ calls,
        outcome (merge countingUnifier.recording .root oddRecords) (0, []) =
          (.error "no type", 5, calls) ∧
        Course .root oddRecords ["a", "b", "odd", "last"] calls (.error "no type") := by
  have hkeys : ∀ fields ∈ oddRecords, (Entries.keys fields).Nodup := by decide
  have hodd : outcome (merge countingUnifier .root oddRecords) 0 = (.error "no type", 5) := rfl
  obtain ⟨result, count, calls, hrun, hrecording, hcourse⟩ :=
    calls_of_merge countingUnifier .root oddRecords hkeys 0
  cases hodd.symm.trans hrun
  exact ⟨hkeys, hodd, calls, hrecording, hcourse⟩

end RecordMerge

end SchemaGraph
