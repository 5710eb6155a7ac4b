import SchemaGraph.Json
import SchemaGraph.Proofs.Graph.Evolution

/-!
This module contains the meaning of a graph: which JSON values the types in it accept. A record is
closed, and a field that a value lacks has to accept null. An open slot accepts nothing yet. What a
type covers, it accepts in the graph as it is and in everything that the graph can become.
-/

namespace SchemaGraph

structure Moments where
  date : String → Prop
  time : String → Prop
  dateTime : String → Prop

def Moments.all : Moments :=
  ⟨fun _ => True, fun _ => True, fun _ => True⟩

def Primitive.Fits (M : Moments) : Primitive → Json → Prop
  | .any, _ => True
  | .null, value => value = .null
  | .bool, value => ∃ b, value = .bool b
  | .integer, value => ∃ n, value = .integer n
  | .double, value => (∃ n, value = .integer n) ∨ ∃ d, value = .double d
  | .date, value => ∃ text, value = .string text ∧ M.date text
  | .time, value => ∃ text, value = .string text ∧ M.time text
  | .dateTime, value => ∃ text, value = .string text ∧ M.dateTime text

def Fields.Fit (A : Handle → Json → Prop) (declared : Fields) (fields : List (String × Json)) :
    Prop :=
  (∀ name value, (name, value) ∈ fields → ∃ type, (name, type) ∈ declared ∧ A type value) ∧
    ∀ name type, (name, type) ∈ declared → name ∉ Entries.keys fields → A type .null

def Shape.Fits (M : Moments) (A : Handle → Json → Prop) : Shape → Json → Prop
  | .primitive kind, value => kind.Fits M value
  | .string, value => ∃ text, value = .string text
  | .enum cases, value => ∃ text ∈ cases, value = .string text
  | .array items, value => ∃ elements, value = .array elements ∧ ∀ e ∈ elements, A items e
  | .map (.filled values), value =>
    ∃ fields, value = .object fields ∧ ∀ name v, (name, v) ∈ fields → A values v
  | .map .pending, _ => False
  | .record (.filled declared), value =>
    ∃ fields, value = .object fields ∧ Fields.Fit A declared fields
  | .record .pending, _ => False
  | .union members, value => ∃ member ∈ members, A member value
  | .nullable inner, value => value = .null ∨ A inner value

/--
The type behind a handle accepts a value. It is the least relation by which types accept the values
of their shapes.
-/
inductive Accepts (M : Moments) (g : Graph) : Handle → Json → Prop where
  | intro {h : Handle} {shape : Shape} {value : Json} (A : Handle → Json → Prop)
      (hA : ∀ h value, A h value → Accepts M g h value) (hshape : g.shape? h = some shape)
      (hfits : shape.Fits M A value) : Accepts M g h value

variable {M : Moments} {g g' : Graph} {h : Handle} {shape : Shape} {value : Json}

theorem Fields.Fit.mono {A B : Handle → Json → Prop} {declared : Fields}
    {fields : List (String × Json)} (h : Fields.Fit A declared fields)
    (hAB : ∀ h value, A h value → B h value) : Fields.Fit B declared fields := by
  refine ⟨?_, fun name type hmem habsent => hAB _ _ (h.2 name type hmem habsent)⟩
  intro name value hmem
  obtain ⟨type, htype, hvalue⟩ := h.1 name value hmem
  exact ⟨type, htype, hAB _ _ hvalue⟩

theorem Shape.Fits.mono {A B : Handle → Json → Prop} (h : shape.Fits M A value)
    (hAB : ∀ h value, A h value → B h value) : shape.Fits M B value := by
  cases shape with
  | primitive kind => exact h
  | string => exact h
  | enum cases => exact h
  | array items =>
    obtain ⟨elements, rfl, helements⟩ := h
    exact ⟨elements, rfl, fun e he => hAB _ _ (helements e he)⟩
  | map values =>
    cases values with
    | pending => exact h
    | filled values =>
      obtain ⟨fields, rfl, hfields⟩ := h
      exact ⟨fields, rfl, fun name v hv => hAB _ _ (hfields name v hv)⟩
  | record fields =>
    cases fields with
    | pending => exact h
    | filled declared =>
      obtain ⟨fields, rfl, hfit⟩ := h
      exact ⟨fields, rfl, hfit.mono hAB⟩
  | union members =>
    obtain ⟨member, hmember, hvalue⟩ := h
    exact ⟨member, hmember, hAB _ _ hvalue⟩
  | nullable inner => exact h.imp_right (hAB _ _)

theorem accepts_iff : Accepts M g h value ↔
    ∃ shape, g.shape? h = some shape ∧ shape.Fits M (Accepts M g) value := by
  constructor
  . rintro ⟨A, hA, hshape, hfits⟩
    exact ⟨_, hshape, hfits.mono hA⟩
  . rintro ⟨shape, hshape, hfits⟩
    exact .intro (Accepts M g) (fun _ _ h => h) hshape hfits

theorem accepts_of_fits (hshape : g.shape? h = some shape)
    (hfits : shape.Fits M (Accepts M g) value) : Accepts M g h value :=
  accepts_iff.2 ⟨shape, hshape, hfits⟩

theorem Accepts.fits (haccepts : Accepts M g h value) (hshape : g.shape? h = some shape) :
    shape.Fits M (Accepts M g) value := by
  obtain ⟨shape', hshape', hfits⟩ := accepts_iff.1 haccepts
  rw [hshape] at hshape'
  cases hshape'
  exact hfits

theorem Shape.not_fits_of_isOpen {A : Handle → Json → Prop} (hopen : shape.isOpen = true) :
    ¬shape.Fits M A value := by
  unfold Shape.isOpen at hopen
  split at hopen
  . exact id
  . exact id
  . cases hopen

theorem Accepts.evolve (haccepts : Accepts M g h value) (hg : g.Evolves g') :
    Accepts M g' h value := by
  induction haccepts with
  | @intro h shape value A _ hshape hfits ih =>
    cases hopen : shape.isOpen with
    | false => exact .intro A ih (hg.shape? hshape hopen) hfits
    | true => exact absurd hfits (Shape.not_fits_of_isOpen hopen)

theorem Accepts.fields_of_valuesOf? {map values : Handle} (haccepts : Accepts M g map value)
    (hvalues : g.valuesOf? map = some values) :
    ∃ fields, value = .object fields ∧ ∀ name v, (name, v) ∈ fields → Accepts M g values v := by
  unfold Graph.valuesOf? at hvalues
  split at hvalues
  . next hshape =>
    cases hvalues
    exact haccepts.fits hshape
  . next hshape => exact False.elim (haccepts.fits hshape)
  . cases hvalues

namespace Graph

def Covers (M : Moments) (g : Graph) (P : Graph → Json → Prop) (h : Handle) : Prop :=
  ∀ g', g.Evolves g' → ∀ value, P g' value → Accepts M g' h value

variable {P Q : Graph → Json → Prop}

theorem Covers.evolve (hP : g.Covers M P h) (hg : g.Evolves g') : g'.Covers M P h :=
  fun _ hg' => hP _ (hg.trans hg')

theorem Covers.mono (hP : g.Covers M P h)
    (hQ : ∀ g', g.Evolves g' → ∀ value, Q g' value → P g' value) : g.Covers M Q h :=
  fun g' hg' value hvalue => hP g' hg' value (hQ g' hg' value hvalue)

theorem covers_of_shape (hshape : g.shape? h = some shape) (hclosed : shape.isOpen = false)
    (hP : ∀ g', g.Evolves g' → ∀ value, P g' value → shape.Fits M (Accepts M g') value) :
    g.Covers M P h := by
  intro g' hg' value hvalue
  exact accepts_of_fits (hg'.shape? hshape hclosed) (hP g' hg' value hvalue)

structure Adds (M : Moments) (g : Graph) (rank : Option Nat) (P : Graph → Json → Prop)
    (r : Handle × Graph) : Prop extends g.Built r.2 where
  has : r.2.Has r.1
  rank : r.2.rank? r.1 = rank
  covers : r.2.Covers M P r.1

theorem Gives.adds {r : Handle × Graph} (hr : g.Gives r shape) (hclosed : shape.isOpen = false)
    (hP : ∀ g', r.2.Evolves g' → ∀ value, P g' value → shape.Fits M (Accepts M g') value) :
    g.Adds M shape.rank? P r :=
  ⟨hr.built hclosed, hr.has, rank?_of_shape? hr.shape, covers_of_shape hr.shape hclosed hP⟩

theorem Adds.mono {rank : Option Nat} {r : Handle × Graph} (hr : g.Adds M rank P r)
    (hQ : ∀ g', r.2.Evolves g' → ∀ value, Q g' value → P g' value) : g.Adds M rank Q r :=
  ⟨hr.toBuilt, hr.has, hr.rank, hr.covers.mono hQ⟩

theorem adds_addPrimitive (hg : g.Sound) (kind : Primitive) :
    g.Adds M (Shape.primitive kind).rank? (fun _ value => kind.Fits M value)
      (g.addPrimitive kind) :=
  (gives_addPrimitive hg kind).adds rfl fun _ _ _ hvalue => hvalue

theorem adds_addString (hg : g.Sound) (hint : NameHint) :
    g.Adds M (some 4) (fun _ value => ∃ text, value = .string text) (g.addString hint) :=
  (gives_addString hg hint).adds rfl fun _ _ _ hvalue => hvalue

theorem adds_addEnum (hg : g.Sound) (hint : NameHint) (cases : List String) :
    g.Adds M (some 8) (fun _ value => ∃ text ∈ cases, value = .string text)
      (g.addEnum hint cases) := by
  obtain ⟨cases', hcases, hgives⟩ := gives_addEnum hg hint cases
  apply hgives.adds rfl
  rintro g' - value ⟨text, htext, rfl⟩
  exact ⟨text, (hcases text).2 htext, rfl⟩

theorem adds_addArray (hg : g.Sound) {items : Handle} (hitems : g.Has items) :
    g.Adds M (some 9) (fun g' value => ∃ elements, value = .array elements ∧
      ∀ e ∈ elements, Accepts M g' items e) (g.addArray items) :=
  (gives_addArray hg hitems).adds rfl fun _ _ _ hvalue => hvalue

theorem adds_addMap (hg : g.Sound) {values : Handle} (hvalues : g.Has values) :
    g.Adds M (some 0) (fun g' value => ∃ fields, value = .object fields ∧
      ∀ name v, (name, v) ∈ fields → Accepts M g' values v) (g.addMap values) :=
  (gives_addMap hg hvalues).adds rfl fun _ _ _ hvalue => hvalue

theorem adds_addUnion (hg : g.Sound) (hint : NameHint) {members : List Handle}
    (hmembers : ∀ member ∈ members, g.Has member) (hmany : 2 ≤ members.length)
    (hascends : Ascends g.rank? 0 Shape.ranks members) :
    g.Adds M none (fun g' value => ∃ member ∈ members, Accepts M g' member value)
      (g.addUnion hint members) := by
  obtain ⟨members', hmembers', hgives⟩ := gives_addUnion hg hint hmembers hmany hascends
  apply hgives.adds rfl
  rintro g' - value ⟨member, hmember, hvalue⟩
  exact ⟨member, (hmembers' member).2 hmember, hvalue⟩

theorem fits_null_of_admitsNull (hadmits : admitsNull shape = true) (A : Handle → Json → Prop) :
    shape.Fits M A .null := by
  unfold admitsNull at hadmits
  split at hadmits
  . rfl
  . trivial
  . exact Or.inl rfl
  . cases hadmits

theorem adds_addNullable (hg : g.Sound) {inner : Handle} (hinner : g.Has inner)
    (hint : NameHint) :
    g.Adds M none (fun g' value => value = .null ∨ Accepts M g' inner value)
      (g.addNullable inner hint) := by
  obtain ⟨shape, hgives, hshape⟩ := gives_addNullable hg hinner hint
  rcases hshape with rfl | ⟨hsame, hadmits⟩
  . exact hgives.adds rfl fun _ _ _ hvalue => hvalue
  . have hclosed := isOpen_of_admitsNull hadmits
    refine ⟨hgives.built hclosed, hgives.has, ?_, ?_⟩
    . rw [rank?_of_shape? hgives.shape, rank?_of_admitsNull hadmits]
    . rintro g' hg' value (rfl | hvalue)
      . exact accepts_of_fits (hg'.shape? hgives.shape hclosed)
          (fits_null_of_admitsNull hadmits _)
      . rwa [hsame]

theorem adds_addRecord (hg : g.Sound) (hint : NameHint) {declared : Fields}
    (hinside : ∀ field ∈ declared, g.Has field.2) (hkeys : (Entries.keys declared).Nodup) :
    g.Adds M (some 0) (fun g' value => ∃ fields, value = .object fields ∧
      Fields.Fit (Accepts M g') declared fields) (g.addRecord hint (.filled declared)) := by
  have hgives : g.Gives (g.addRecord hint (.filled declared)) (.record (.filled declared)) := by
    apply gives_addRecord hg hint
    . intro child hchild
      obtain ⟨field, hfield, rfl⟩ := List.mem_map.1 hchild
      exact hinside field hfield
    . rintro content ⟨⟩
      exact hkeys
  exact hgives.adds rfl fun _ _ _ hvalue => hvalue

end Graph

end SchemaGraph
