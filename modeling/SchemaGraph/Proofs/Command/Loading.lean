import Mathlib.Data.List.Forall2
import SchemaGraph.Command.Run

/-!
This module contains what a command reads before it converts anything: the options, the paths of the
documents and the documents. A host answers by a view of its state, which is not changed by printing.
So reading leaves the state as it is, and it ends in the same way before and after a text is printed.
-/

namespace SchemaGraph

variable {σ α β : Type}

structure Files where
  read : String → Except AccessFault String
  expand : String → Except Glob.PatternFault (List String)

structure Host.Shows (host : Host (StateM σ)) (view : σ → Files) : Prop where
  read : ∀ path s, host.read path s = ((view s).read path, s)
  expand : ∀ pattern s, host.expand pattern s = ((view s).expand pattern, s)
  print : ∀ text s, view (host.print text s).2 = view s

def Disk.files (disk : Disk) : Files :=
  ⟨disk.tree.read, Glob.expand disk.tree⟩

theorem Disk.host_shows : Disk.host.Shows Disk.files :=
  ⟨fun _ _ => rfl, fun _ _ => rfl, fun _ _ => rfl⟩

namespace Command

abbrev Action (σ α : Type) :=
  ExceptT Chain (StateM σ) α

def Action.run (action : Action σ α) (s : σ) : Except Chain α × σ :=
  ExceptT.run action s

variable {view : σ → Files} {action : Action σ α} {f : α → Action σ β}
  {host : Host (StateM σ)} {s t : σ}

theorem run_pure {a : α} : Action.run (pure a) s = (.ok a, s) := rfl

theorem run_lift (effect : StateM σ α) (s : σ) :
    Action.run (liftM effect) s = (.ok (effect s).1, (effect s).2) := rfl

theorem run_bind : Action.run (action >>= f) s =
    match action.run s with
    | (.ok a, t) => (f a).run t
    | (.error chain, t) => (.error chain, t) := by
  change ExceptT.bindCont f (action.run s).1 (action.run s).2 = _
  rcases action.run s with ⟨chain | a, t⟩ <;> rfl

theorem run_bind_ok {a : α} (h : action.run s = (.ok a, t)) :
    Action.run (action >>= f) s = (f a).run t := by
  rw [run_bind, h]

theorem run_bind_error {chain : Chain} (h : action.run s = (.error chain, t)) :
    Action.run (action >>= f) s = (.error chain, t) := by
  rw [run_bind, h]

def Gives (action : Action σ α) (s : σ) (a : α) : Prop :=
  action.run s = (.ok a, s)

structure Reads (view : σ → Files) (action : Action σ α) : Prop where
  quiet : ∀ s, (action.run s).2 = s
  same : ∀ s t, view s = view t → (action.run s).1 = (action.run t).1
  caused : ∀ s chain, (action.run s).1 = .error chain → 2 ≤ chain.length

theorem reads_pure {a : α} : Reads view (pure a) :=
  ⟨fun _ => rfl, fun _ _ _ => rfl, nofun⟩

theorem reads_throw {circumstance cause : String} {causes : Chain} :
    Reads view (throw (circumstance :: cause :: causes) : Action σ α) := by
  refine ⟨fun _ => rfl, fun _ _ _ => rfl, ?_⟩
  rintro s chain ⟨⟩
  exact Nat.le_add_left ..

theorem Reads.run_eq (h : Reads view action) (s : σ) :
    action.run s = ((action.run s).1, s) :=
  Prod.ext rfl (h.quiet s)

theorem Reads.cases (h : Reads view action) (s : σ) :
    (∃ a, Gives action s a) ∨ ∃ chain, action.run s = (.error chain, s) ∧ 2 ≤ chain.length := by
  unfold Gives
  rw [h.run_eq s]
  cases hresult : (action.run s).1 with
  | ok a => exact .inl ⟨a, rfl⟩
  | error chain => exact .inr ⟨chain, rfl, h.caused s chain hresult⟩

theorem Reads.gives_iff (h : Reads view action) (hview : view s = view t) {a : α} :
    Gives action s a ↔ Gives action t a := by
  unfold Gives
  rw [h.run_eq s, h.run_eq t, h.same s t hview]
  simp only [Prod.mk.injEq, and_true]

theorem Reads.of_bind (h : Reads view action) {b : β} (hbind : Gives (action >>= f) s b) :
    ∃ a, Gives action s a ∧ Gives (f a) s b := by
  obtain ⟨a, ha⟩ | ⟨chain, hchain, -⟩ := h.cases s
  . exact ⟨a, ha, (run_bind_ok ha).symm.trans hbind⟩
  . cases (run_bind_error hchain).symm.trans hbind

theorem Reads.bind (h : Reads view action) (hf : ∀ a, Reads view (f a)) :
    Reads view (action >>= f) := by
  have hrun : ∀ s, Action.run (action >>= f) s =
      match (action.run s).1 with
      | .ok a => (f a).run s
      | .error chain => (.error chain, s) := by
    intro s
    rw [run_bind, h.run_eq s]
    cases (action.run s).1 <;> rfl
  constructor
  . intro s
    rw [hrun]
    cases (action.run s).1 with
    | error chain => rfl
    | ok a => exact (hf a).quiet s
  . intro s t hview
    rw [hrun, hrun, h.same s t hview]
    cases (action.run t).1 with
    | error chain => rfl
    | ok a => exact (hf a).same s t hview
  . intro s chain hchain
    rw [hrun] at hchain
    cases hfirst : (action.run s).1 with
    | error chain =>
      rw [hfirst] at hchain
      cases hchain
      exact h.caused s _ hfirst
    | ok a =>
      rw [hfirst] at hchain
      exact (hf a).caused s chain hchain

theorem reads_of_run (find : Files → Except Chain α)
    (hrun : ∀ s, action.run s = (find (view s), s))
    (hcaused : ∀ files chain, find files = .error chain → 2 ≤ chain.length) :
    Reads view action := by
  constructor
  . intro s
    rw [hrun]
  . intro s t hview
    rw [hrun, hrun, hview]
  . intro s chain hchain
    rw [hrun] at hchain
    exact hcaused _ _ hchain

theorem reads_text (hhost : host.Shows view) {path : String}
    {respond : Except AccessFault String → StateM σ (Except Chain String)}
    (report : AccessFault → Chain) (htext : ∀ text, respond (.ok text) = pure (.ok text))
    (hfault : ∀ fault, respond (.error fault) = pure (.error (report fault)))
    (hcaused : ∀ fault, 2 ≤ (report fault).length) :
    Reads view (ExceptT.mk (host.read path >>= respond)) := by
  apply reads_of_run fun files => (files.read path).mapError report
  . intro s
    change respond (host.read path s).1 (host.read path s).2 = _
    rw [hhost.read]
    cases (view s).read path with
    | error fault => exact congrFun (hfault fault) s
    | ok text => exact congrFun (htext text) s
  . intro files chain hchain
    cases hfile : files.read path with
    | ok text =>
      rw [hfile] at hchain
      cases hchain
    | error fault =>
      rw [hfile] at hchain
      cases hchain
      exact hcaused fault

theorem reads_readFile (hhost : host.Shows view) (circumstance path : String) :
    Reads view (readFile host [circumstance] path) :=
  reads_text hhost (fun fault => [circumstance, fault.message]) (fun _ => rfl) (fun _ => rfl)
    fun _ => Nat.le_refl 2

theorem reads_loadOptions (hhost : host.Shows view) (inputs : Inputs) :
    Reads view (loadOptions host inputs) := by
  unfold loadOptions
  cases inputs.config with
  | none => exact reads_pure
  | some path =>
    refine (reads_text hhost (fun fault => ["failed to load options from " ++ path,
      "IO error: " ++ fault.message, fault.message]) ?_ ?_ ?_).bind ?_
    . exact fun _ => rfl
    . exact fun _ => rfl
    . exact fun _ => Nat.le_add_left 2 1
    . intro text
      cases Options.ofText text with
      | ok options => exact reads_pure
      | error message => exact reads_throw

theorem reads_pathsOf (hhost : host.Shows view) (input : String) :
    Reads view (pathsOf host input) := by
  unfold pathsOf
  cases Glob.isPattern input with
  | false => exact reads_pure
  | true =>
    have hexpand : Reads view (liftM (host.expand input) : Action σ _) := by
      apply reads_of_run fun files => .ok (files.expand input)
      . intro s
        rw [run_lift, hhost.expand]
      . nofun
    apply hexpand.bind
    rintro (fault | (_ | ⟨path, paths⟩))
    . exact reads_throw
    . exact reads_throw
    . exact reads_pure

theorem reads_resolvePaths (hhost : host.Shows view) (patterns : List String) :
    Reads view (resolvePaths host patterns) := by
  induction patterns with
  | nil => exact reads_pure
  | cons input rest ih =>
    unfold resolvePaths
    exact (reads_pathsOf hhost input).bind fun _ => ih.bind fun _ => reads_pure

theorem reads_loadDocument (hhost : host.Shows view) (path : String) :
    Reads view (loadDocument host path) := by
  unfold loadDocument
  apply (reads_readFile hhost _ path).bind
  intro text
  cases Json.ofText text with
  | ok document => exact reads_pure
  | error message => exact reads_throw

theorem reads_describeAll (hhost : host.Shows view) (options : Options) (paths : List String) :
    Reads view (describeAll host options paths) := by
  induction paths with
  | nil => exact reads_pure
  | cons path rest ih =>
    unfold describeAll
    apply (reads_loadDocument hhost path).bind
    intro document
    cases Conversion.ofDocument document options with
    | error fault => exact reads_throw
    | ok conversion => exact ih.bind fun _ => reads_pure

structure Loads (host : Host (StateM σ)) (inputs : Inputs) (s : σ) (options : Options)
    (paths : List String) (documents : List Json) : Prop where
  loadOptions : Gives (loadOptions host inputs) s options
  resolvePaths : Gives (resolvePaths host inputs.patterns) s paths
  loadDocuments : List.Forall₂ (fun path => Gives (loadDocument host path) s) paths documents

end Command

end SchemaGraph
