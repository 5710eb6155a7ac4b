import SchemaGraph.Graph
import SchemaGraph.Json

/-!
This module contains the state of a conversion and the effects that read and change it. An effect
ends with a result or with a fault, and the state that it has reached stays in both cases. The state
keeps the type recorded for each location, the locations whose conversion is under way, and a
journal of what has happened, the latest event first, which statements about the course of a
conversion are read off.
-/

namespace SchemaGraph

inductive Event where
  /-- The type of the schema at a location was asked for. -/
  | requested (loc : Location) (node : Json)
  /-- The conversion of the schema at a location began. -/
  | entered (loc : Location) (node : Json)
  /-- It began again inside itself, when the types in `memo` were recorded. -/
  | reentered (loc : Location) (node : Json) (memo : Entries Location Handle)
  /-- The conversion of the schema at a location ended, with or without a result. -/
  | left (loc : Location)
  /-- Several records at a location began to be merged into one. -/
  | merged (loc : Location) (records : List Handle)
  /-- Several maps at a location began to be joined. Each of them was read with these values. -/
  | joined (loc : Location) (reads : List (Handle × Handle))
  /-- A type was recorded for a location. -/
  | recorded (loc : Location) (type : Handle)

/--
The state of a conversion. A location is `active` while its conversion is under way and `reentered`
while it is converted a second time inside that.
-/
structure State where
  document : Json
  graph : Graph
  memo : Entries Location Handle
  active : List Location
  reentered : List Location
  journal : List Event

def State.start (document : Json) : State :=
  { document, graph := .empty, memo := [], active := [], reentered := [], journal := [] }

abbrev Effect (α : Type) := ExceptT Fault (StateM State) α

namespace Effect

def run {α : Type} (effect : Effect α) (s : State) : Except Fault α × State :=
  effect s

def check {α : Type} (result : Except Fault α) : Effect α :=
  fun s => (result, s)

def state : Effect State :=
  fun s => (.ok s, s)

def fail {α : Type} (fault : Fault) : Effect α :=
  fun s => (.error fault, s)

def change (f : State → State) : Effect Unit :=
  fun s => (.ok (), f s)

def note (event : Event) : Effect Unit :=
  change fun s => { s with journal := event :: s.journal }

def build (make : Graph → Handle × Graph) : Effect Handle :=
  fun s => (.ok (make s.graph).1, { s with graph := (make s.graph).2 })

def fill (complete : Graph → Except Fault Graph) : Effect Unit :=
  fun s =>
    match complete s.graph with
    | .ok graph => (.ok (), { s with graph })
    | .error fault => (.error fault, s)

def record (loc : Location) (h : Handle) : Effect Unit :=
  change fun s => { s with memo := s.memo.put loc h, journal := .recorded loc h :: s.journal }

def whileActive {α : Type} (loc : Location) (node : Json) (effect : Effect α) : Effect α :=
  fun s =>
    let (result, s) := effect.run
      { s with active := loc :: s.active, journal := .entered loc node :: s.journal }
    (result, { s with active := s.active.erase loc, journal := .left loc :: s.journal })

def whileReentered {α : Type} (loc : Location) (node : Json) (effect : Effect α) : Effect α :=
  fun s =>
    let (result, s) := effect.run
      { s with reentered := loc :: s.reentered, journal := .reentered loc node s.memo :: s.journal }
    (result, { s with reentered := s.reentered.erase loc, journal := .left loc :: s.journal })

def collect {α : Type} : List (Effect α) → Effect (List α)
  | [] => pure []
  | effect :: rest => do
    let result ← effect
    let results ← collect rest
    return result :: results

variable {α β : Type}

@[simp]
theorem run_pure (a : α) (s : State) : run (pure a) s = (.ok a, s) := rfl

@[simp]
theorem run_fail (fault : Fault) (s : State) : run (fail fault : Effect α) s = (.error fault, s) :=
  rfl

@[simp]
theorem run_state (s : State) : run state s = (.ok s, s) := rfl

@[simp]
theorem run_check (result : Except Fault α) (s : State) :
    run (check result) s = (result, s) := rfl

@[simp]
theorem run_change (f : State → State) (s : State) : run (change f) s = (.ok (), f s) := rfl

@[simp]
theorem run_build (make : Graph → Handle × Graph) (s : State) :
    run (build make) s = (.ok (make s.graph).1, { s with graph := (make s.graph).2 }) := rfl

theorem run_bind (effect : Effect α) (next : α → Effect β) (s : State) :
    run (effect >>= next) s =
      match run effect s with
      | (.ok a, s') => run (next a) s'
      | (.error fault, s') => (.error fault, s') := by
  simp only [run, bind, ExceptT.bind, ExceptT.mk, StateT.bind]
  rcases effect s with ⟨_ | _, _⟩ <;> rfl

theorem run_eq_of_ok {effect : Effect α} {s : State} {a : α} (h : (run effect s).1 = .ok a) :
    run effect s = (.ok a, (run effect s).2) :=
  Prod.ext h rfl

end Effect

end SchemaGraph
