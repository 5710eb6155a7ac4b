import SchemaGraph.Fault

/-!
This module contains type graphs and the functions that build them. A graph is a list of nodes that
only grows. Primitive types, strings, enums, arrays, maps, unions and nullables are shared: asking
again for a structure that the graph has gives the same node. Records and open maps are never
shared. The content of an open node is filled in at most once.
-/

namespace SchemaGraph

/--
The structure by which a shared node is found. Cases of an enum and members of a union count as
sets.
-/
inductive Key where
  | primitive (kind : Primitive)
  | string
  | enum (cases : List String)
  | array (items : Handle)
  | map (values : Handle)
  | union (members : List Handle)
  | nullable (inner : Handle)
  deriving DecidableEq, Inhabited

def sameElements {α : Type} [DecidableEq α] (as bs : List α) : Bool :=
  as.all (fun a => a ∈ bs) && bs.all (fun b => b ∈ as)

theorem sameElements_iff {α : Type} [DecidableEq α] {as bs : List α} :
    sameElements as bs = true ↔ ∀ a, a ∈ as ↔ a ∈ bs := by
  simp only [sameElements, Bool.and_eq_true, List.all_eq_true, decide_eq_true_eq]
  exact ⟨fun h a => ⟨h.1 a, h.2 a⟩, fun h => ⟨fun a => (h a).1, fun a => (h a).2⟩⟩

namespace Key

def same : Key → Key → Bool
  | .primitive k, .primitive k' => k = k'
  | .string, .string => true
  | .enum cases, .enum cases' => sameElements cases cases'
  | .array items, .array items' => items = items'
  | .map values, .map values' => values = values'
  | .union members, .union members' => sameElements members members'
  | .nullable inner, .nullable inner' => inner = inner'
  | _, _ => false

@[simp]
theorem same_refl (key : Key) : key.same key = true := by
  cases key <;> simp [same, sameElements_iff]

theorem same_symm {a b : Key} (h : a.same b = true) : b.same a = true := by
  cases a <;> cases b <;> simp_all [same, sameElements_iff]

theorem same_trans {a b c : Key} (hab : a.same b = true) (hbc : b.same c = true) :
    a.same c = true := by
  cases a <;> cases b <;> cases c <;> simp_all [same, sameElements_iff]

end Key

structure Graph where
  nodes : Array Node
  shared : List (Key × Handle)
  deriving Inhabited

namespace Graph

def empty : Graph :=
  ⟨#[], []⟩

def size (g : Graph) : Nat :=
  g.nodes.size

def isEmpty (g : Graph) : Bool :=
  g.nodes.isEmpty

def node? (g : Graph) (h : Handle) : Option Node :=
  g.nodes[h.index]?

def shape? (g : Graph) (h : Handle) : Option Shape :=
  (g.node? h).map Node.shape

def hint? (g : Graph) (h : Handle) : Option NameHint :=
  (g.node? h).bind Node.hint

def push (g : Graph) (node : Node) : Handle × Graph :=
  (⟨g.nodes.size⟩, { g with nodes := g.nodes.push node })

def shared? (g : Graph) (key : Key) : Option Handle :=
  (g.shared.find? fun entry => entry.1.same key).map Prod.snd

def addHint (g : Graph) (h : Handle) (hint : NameHint) : Graph :=
  match g.node? h with
  | none => g
  | some node =>
    let stronger := match node.hint with
      | none => hint
      | some old => old.strengthen hint
    { g with nodes := g.nodes.setIfInBounds h.index { node with hint := some stronger } }

def share (g : Graph) (key : Key) (shape : Shape) (hint : Option NameHint) : Handle × Graph :=
  match g.shared? key with
  | some h =>
    match hint with
    | none => (h, g)
    | some hint => (h, g.addHint h hint)
  | none =>
    let (h, g) := g.push ⟨shape, hint⟩
    (h, { g with shared := (key, h) :: g.shared })

def addPrimitive (g : Graph) (kind : Primitive) : Handle × Graph :=
  g.share (.primitive kind) (.primitive kind) none

def addString (g : Graph) (hint : NameHint) : Handle × Graph :=
  g.share .string .string (some hint)

def addEnum (g : Graph) (hint : NameHint) (cases : List String) : Handle × Graph :=
  g.share (.enum (distinct cases)) (.enum (distinct cases)) (some hint)

def addArray (g : Graph) (items : Handle) : Handle × Graph :=
  g.share (.array items) (.array items) none

def addMap (g : Graph) (values : Handle) : Handle × Graph :=
  g.share (.map values) (.map (.filled values)) none

def addOpenMap (g : Graph) : Handle × Graph :=
  g.push ⟨.map .pending, none⟩

def addRecord (g : Graph) (hint : NameHint) (fields : Slot Fields) : Handle × Graph :=
  g.push ⟨.record fields, some hint⟩

/--
The node of a union. The members have to be flat already.
-/
def addUnion (g : Graph) (hint : NameHint) (members : List Handle) : Handle × Graph :=
  g.share (.union members) (.union members) (some hint)

def admitsNull : Shape → Bool
  | .primitive .null => true
  | .primitive .any => true
  | .nullable _ => true
  | _ => false

def addNullable (g : Graph) (inner : Handle) (hint : NameHint) : Handle × Graph :=
  if (g.shape? inner).any admitsNull then (inner, g)
  else g.share (.nullable inner) (.nullable inner) (some hint)

def setShape (g : Graph) (h : Handle) (shape : Shape) : Graph :=
  match g.node? h with
  | none => g
  | some node => { g with nodes := g.nodes.setIfInBounds h.index { node with shape } }

def fillMap (g : Graph) (target values : Handle) : Except Fault Graph :=
  match g.shape? target with
  | some (.map .pending) => .ok (g.setShape target (.map (.filled values)))
  | _ => .error (.noOpenSlot target)

def fillRecord (g : Graph) (target : Handle) (fields : Fields) : Except Fault Graph :=
  match g.shape? target with
  | some (.record .pending) => .ok (g.setShape target (.record (.filled fields)))
  | _ => .error (.noOpenSlot target)

/--
The values of a map. A map that is still open stands for its own values.
-/
def valuesOf? (g : Graph) (h : Handle) : Option Handle :=
  match g.shape? h with
  | some (.map (.filled values)) => some values
  | some (.map .pending) => some h
  | _ => none

def children (g : Graph) (h : Handle) : List Handle :=
  match g.shape? h with
  | none => []
  | some shape => shape.children

@[simp]
theorem size_push (g : Graph) (node : Node) : (g.push node).2.size = g.size + 1 := by
  simp [push, size]

theorem node?_push (g : Graph) (node : Node) (h : Handle) :
    (g.push node).2.node? h = if h.index = g.size then some node else g.node? h := by
  simp only [push, node?, size, Array.getElem?_push]
  rfl

@[simp]
theorem size_addHint (g : Graph) (h : Handle) (hint : NameHint) :
    (g.addHint h hint).size = g.size := by
  unfold addHint
  split <;> simp [size]

@[simp]
theorem shape?_addHint (g : Graph) (h k : Handle) (hint : NameHint) :
    (g.addHint h hint).shape? k = g.shape? k := by
  unfold addHint
  split
  . rfl
  . rename_i node hnode
    simp only [shape?, node?, Array.getElem?_setIfInBounds] at hnode ⊢
    by_cases hk : h.index = k.index
    . rw [hk] at hnode
      obtain ⟨hlt, rfl⟩ := Array.getElem?_eq_some_iff.1 hnode
      simp [hk, hlt]
    . simp [hk]

@[simp]
theorem size_setShape (g : Graph) (h : Handle) (shape : Shape) :
    (g.setShape h shape).size = g.size := by
  unfold setShape
  split <;> simp [size]

theorem le_size_share (g : Graph) (key : Key) (shape : Shape) (hint : Option NameHint) :
    g.size ≤ (g.share key shape hint).2.size := by
  unfold share
  split
  . split <;> simp
  . simp [push, size]

end Graph

end SchemaGraph
