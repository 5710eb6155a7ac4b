import SchemaGraph.Proofs.Command.Loading
import SchemaGraph.Proofs.Session.NameIndependence

/-!
This module contains the proof that both commands judge the same documents in the same way. `graph`
succeeds for those inputs for which `check` does. It writes nothing before all of the documents have
been converted, and then it describes them in the order in which `check` reports on them.
-/

namespace SchemaGraph

variable {σ : Type} {view : σ → Files} {host : Host (StateM σ)} {inputs : Inputs}
  {options : Options} {rootName : Option String} {paths : List String} {documents : List Json}
  {conversions : List Conversion} {s : σ}

def Host.printed (host : Host (StateM σ)) (texts : List String) (s : σ) : σ :=
  texts.foldl (fun s text => (host.print text s).2) s

def Options.renamed (options : Options) : Option String → Options
  | none => options
  | some rootName => { options with rootName }

namespace Conversion

def description (conversion : Conversion) : Json :=
  conversion.graph.description conversion.root

theorem ofDocument_renamed {document : Json} {conversion : Conversion} (options' : Options)
    (h : ofDocument document options = .ok conversion) :
    ∃ conversion', ofDocument document options' = .ok conversion' ∧
      conversion'.graph.size = conversion.graph.size := by
  have hrun : Effect.SameEnd _ _ (run document options) (run document options') :=
    Descent.abreast_convert (.refl (.start document)) document .root _ _
  unfold ofDocument at h ⊢
  generalize run document options = left at h hrun
  generalize run document options' = right at hrun ⊢
  cases hrun with
  | result hlike =>
    cases h
    exact ⟨_, rfl, hlike.graph.shapes.size_eq.symm⟩
  | fault _ => cases h

end Conversion

namespace Command

def verdict (path : String) : Except Fault Conversion → String
  | .ok conversion => "ok    " ++ path ++ " (" ++ toString conversion.graph.size ++ " types)\n"
  | .error fault => "FAIL  " ++ path ++ ": " ++ fault.message ++ "\n"

def IsFailure (text : String) : Prop :=
  "FAIL".toList <+: text.toList

instance (text : String) : Decidable (IsFailure text) :=
  inferInstanceAs (Decidable ("FAIL".toList <+: text.toList))

theorem isFailure_verdict (path : String) (result : Except Fault Conversion) :
    IsFailure (verdict path result) ↔ ∃ fault, result = .error fault := by
  cases result with
  | error fault => simp [IsFailure, verdict]
  | ok conversion => simp [IsFailure, verdict]

def verdicts (options : Options) (paths : List String) (documents : List Json) : List String :=
  List.zipWith verdict paths (documents.map (Conversion.ofDocument · options))

abbrev Reading (host : Host (StateM σ)) (s : σ) : List String → List Json → Prop :=
  List.Forall₂ fun path => Gives (loadDocument host path) s

abbrev Converting (options : Options) : List Json → List Conversion → Prop :=
  List.Forall₂ fun document conversion => Conversion.ofDocument document options = .ok conversion

theorem gives_describeAll (hread : Reading host s paths documents)
    (hconvert : Converting options documents conversions) :
    Gives (describeAll host options paths) s (conversions.map Conversion.description) := by
  induction hread generalizing conversions with
  | nil =>
    cases hconvert
    rfl
  | @cons path document paths documents hpath _ ih =>
    obtain _ | ⟨hdocument, hrest⟩ := hconvert
    unfold Gives describeAll
    rw [run_bind_ok hpath, hdocument]
    exact run_bind_ok (ih hrest)

theorem of_gives_describeAll (hhost : host.Shows view) {descriptions : List Json}
    (h : Gives (describeAll host options paths) s descriptions) :
    ∃ documents conversions, Reading host s paths documents ∧
      Converting options documents conversions := by
  induction paths generalizing descriptions with
  | nil => exact ⟨[], [], .nil, .nil⟩
  | cons path rest ih =>
    obtain ⟨document, hdocument, h⟩ := (reads_loadDocument hhost path).of_bind h
    cases hconversion : Conversion.ofDocument document options with
    | error fault =>
      rw [hconversion] at h
      cases h
    | ok conversion =>
      rw [hconversion] at h
      obtain ⟨rest', hrest, -⟩ := (reads_describeAll hhost options rest).of_bind h
      obtain ⟨documents, conversions, hread, hconvert⟩ := ih hrest
      exact ⟨document :: documents, conversion :: conversions, .cons hdocument hread,
        .cons hconversion hconvert⟩

theorem reading_printed (hhost : host.Shows view) (text : String) :
    Reading host (host.print text s).2 paths documents ↔ Reading host s paths documents := by
  have hgives : ∀ path document, Gives (loadDocument host path) (host.print text s).2 document ↔
      Gives (loadDocument host path) s document :=
    fun path _ => (reads_loadDocument hhost path).gives_iff (hhost.print text s)
  exact ⟨.imp fun path document => (hgives path document).1,
    .imp fun path document => (hgives path document).2⟩

theorem run_checkAll_cons {path : String} {document : Json}
    (hdocument : Gives (loadDocument host path) s document) :
    let text := verdict path (Conversion.ofDocument document options)
    Action.run (checkAll host options (path :: paths)) s =
      Action.run (checkAll host options paths >>= fun failures =>
        pure (failures + if IsFailure text then 1 else 0)) (host.print text s).2 := by
  dsimp only
  conv_lhs => unfold checkAll
  rw [run_bind_ok hdocument]
  generalize Conversion.ofDocument document options = result
  cases result with
  | error fault =>
    have hfailure := (isFailure_verdict path (.error fault)).2 ⟨fault, rfl⟩
    simp only [if_pos hfailure]
    rfl
  | ok conversion =>
    have hnot := mt (isFailure_verdict path (.ok conversion)).1 nofun
    simp only [if_neg hnot, Nat.add_zero, bind_pure]
    rfl

theorem run_checkAll (hhost : host.Shows view) (hread : Reading host s paths documents) :
    Action.run (checkAll host options paths) s =
      (.ok ((verdicts options paths documents).countP fun text => IsFailure text),
        host.printed (verdicts options paths documents) s) := by
  induction paths generalizing s documents with
  | nil =>
    cases hread
    rfl
  | cons path rest ih =>
    obtain _ | ⟨hdocument, hrest⟩ := hread
    rw [run_checkAll_cons hdocument, run_bind_ok (ih ((reading_printed hhost _).2 hrest)), run_pure]
    simp only [verdicts, List.map_cons, List.zipWith_cons_cons, List.countP_cons, decide_eq_true_eq]
    rfl

theorem checkAll_cases (hhost : host.Shows view) (options : Options) (paths : List String)
    (s : σ) : (∃ documents, Reading host s paths documents) ∨
      ∃ chain t, Action.run (checkAll host options paths) s = (.error chain, t) ∧
        2 ≤ chain.length := by
  induction paths generalizing s with
  | nil => exact .inl ⟨[], .nil⟩
  | cons path rest ih =>
    obtain ⟨document, hdocument⟩ | ⟨chain, hchain, htwo⟩ := (reads_loadDocument hhost path).cases s
    . let text := verdict path (Conversion.ofDocument document options)
      rw [run_checkAll_cons hdocument]
      obtain ⟨documents, hread⟩ | ⟨chain, t, hchain, htwo⟩ := ih (host.print text s).2
      . exact .inl ⟨document :: documents, .cons hdocument ((reading_printed hhost _).1 hread)⟩
      . exact .inr ⟨chain, t, run_bind_error hchain, htwo⟩
    . exact .inr ⟨chain, s, run_bind_error hchain, htwo⟩

def descriptions (host : Host (StateM σ)) (inputs : Inputs) (rootName : Option String) :
    Action σ (List Json) := do
  let options ← loadOptions host inputs
  let paths ← resolvePaths host inputs.patterns
  describeAll host (options.renamed rootName) paths

theorem run_graph (out : Option String) :
    run host (.graph inputs rootName out false) =
      descriptions host inputs rootName >>= fun texts => deliver host out (render texts) := by
  unfold descriptions
  simp only [bind_assoc]
  rfl

theorem reads_descriptions (hhost : host.Shows view) (inputs : Inputs)
    (rootName : Option String) : Reads view (descriptions host inputs rootName) :=
  (reads_loadOptions hhost inputs).bind fun options =>
    (reads_resolvePaths hhost inputs.patterns).bind fun paths =>
      reads_describeAll hhost (options.renamed rootName) paths

theorem gives_descriptions (hload : Loads host inputs s options paths documents)
    (hconvert : Converting (options.renamed rootName) documents conversions) :
    Gives (descriptions host inputs rootName) s (conversions.map Conversion.description) := by
  unfold Gives descriptions
  rw [run_bind_ok hload.loadOptions, run_bind_ok hload.resolvePaths]
  exact gives_describeAll hload.loadDocuments hconvert

theorem of_gives_descriptions (hhost : host.Shows view) {texts : List Json}
    (h : Gives (descriptions host inputs rootName) s texts) :
    ∃ options paths documents conversions, Loads host inputs s options paths documents ∧
      Converting (options.renamed rootName) documents conversions := by
  obtain ⟨options, hoptions, h⟩ := (reads_loadOptions hhost inputs).of_bind h
  obtain ⟨paths, hpaths, h⟩ := (reads_resolvePaths hhost inputs.patterns).of_bind h
  obtain ⟨documents, conversions, hread, hconvert⟩ := of_gives_describeAll hhost h
  exact ⟨options, paths, documents, conversions, ⟨hoptions, hpaths, hread⟩, hconvert⟩

def tally (failures total : Nat) : String :=
  toString failures ++ " of " ++ toString total ++ " schemas failed to convert"

theorem tally_inj {failures total failures' total' : Nat}
    (h : tally failures total = tally failures' total') : failures = failures' ∧ total = total' := by
  have hsplit : ∀ failures total : Nat, (tally failures total).toList =
      ((Nat.toDigits 10 failures ++ [' ']) ++ 'o' :: 'f' :: ' ' :: Nat.toDigits 10 total) ++
        " schemas failed to convert".toList := by
    intro failures total
    simp only [tally, Nat.toString_eq_repr, String.toList_append, Nat.toList_repr,
      List.append_assoc]
    rfl
  -- No digit is an `o`, so the two numbers stand on either side of the only one there is.
  have hleft : 'o' ∉ Nat.toDigits 10 failures ++ [' '] := by
    simp [(not_mem_toDigits failures rfl : 'o' ∉ _)]
  have hright : 'o' ∉ 'f' :: ' ' :: Nat.toDigits 10 total := by
    simp [(not_mem_toDigits total rfl : 'o' ∉ _)]
  have hparts := congrArg String.toList h
  rw [hsplit, hsplit, List.append_left_inj, List.append_cons_inj_of_notMem hleft hright,
    List.append_left_inj] at hparts
  obtain ⟨hfailures, -, htotal⟩ := hparts
  simp only [List.cons.injEq, true_and] at htotal
  exact ⟨toDigits_inj.1 hfailures, toDigits_inj.1 htotal⟩

theorem run_check (hhost : host.Shows view) (hload : Loads host inputs s options paths documents) :
    let texts := verdicts options paths documents
    let failures := texts.countP fun text => IsFailure text
    Action.run (run host (.check inputs)) s =
      (if failures = 0 then .ok () else .error [tally failures paths.length],
        host.printed texts s) := by
  dsimp only
  unfold run
  rw [run_bind_ok hload.loadOptions, run_bind_ok hload.resolvePaths,
    run_bind_ok (run_checkAll hhost hload.loadDocuments)]
  split <;> rfl

theorem check_cases (hhost : host.Shows view) (inputs : Inputs) (s : σ) :
    (∃ options paths documents, Loads host inputs s options paths documents) ∨
      ∃ chain t, Action.run (run host (.check inputs)) s = (.error chain, t) ∧
        2 ≤ chain.length := by
  unfold run
  obtain ⟨options, hoptions⟩ | ⟨chain, hchain, htwo⟩ := (reads_loadOptions hhost inputs).cases s
  . rw [run_bind_ok hoptions]
    obtain ⟨paths, hpaths⟩ | ⟨chain, hchain, htwo⟩ :=
      (reads_resolvePaths hhost inputs.patterns).cases s
    . rw [run_bind_ok hpaths]
      obtain ⟨documents, hread⟩ | ⟨chain, t, hchain, htwo⟩ := checkAll_cases hhost options paths s
      . exact .inl ⟨options, paths, documents, hoptions, hpaths, hread⟩
      . exact .inr ⟨chain, t, run_bind_error hchain, htwo⟩
    . exact .inr ⟨chain, s, run_bind_error hchain, htwo⟩
  . exact .inr ⟨chain, s, run_bind_error hchain, htwo⟩

theorem verdicts_eq (h : Converting options documents conversions) (options' : Options)
    (paths : List String) :
    verdicts options' paths documents = List.zipWith verdict paths (conversions.map .ok) := by
  induction h generalizing paths with
  | nil => cases paths <;> rfl
  | @cons document conversion documents conversions hdocument _ ih =>
    cases paths with
    | nil => rfl
    | cons path paths =>
      obtain ⟨conversion', hdocument', hsize⟩ :=
        Conversion.ofDocument_renamed options' hdocument
      have hverdict : verdict path (Conversion.ofDocument document options') =
          verdict path (.ok conversion) := by
        rw [hdocument']
        simp only [verdict, hsize]
      exact congrArg₂ List.cons hverdict (ih paths)

theorem failures_eq_zero (h : Converting options documents conversions) (options' : Options)
    (paths : List String) :
    (verdicts options' paths documents).countP (fun text => IsFailure text) = 0 := by
  rw [verdicts_eq h]
  clear h
  induction conversions generalizing paths with
  | nil => cases paths <;> rfl
  | cons conversion conversions ih =>
    cases paths with
    | nil => rfl
    | cons path paths =>
      have hnot := mt (isFailure_verdict path (.ok conversion)).1 nofun
      rw [List.map_cons, List.zipWith_cons_cons, List.countP_cons_of_neg (by simpa using hnot)]
      exact ih paths

theorem exists_converting (options' : Options) (hlength : paths.length = documents.length)
    (h : (verdicts options paths documents).countP (fun text => IsFailure text) = 0) :
    ∃ conversions, Converting options' documents conversions := by
  induction documents generalizing paths with
  | nil => exact ⟨[], .nil⟩
  | cons document documents ih =>
    obtain _ | ⟨path, paths⟩ := paths
    . cases hlength
    rw [List.countP_eq_zero] at h
    have hpath : ¬IsFailure (verdict path (Conversion.ofDocument document options)) := by
      simpa using h _ List.mem_cons_self
    obtain ⟨conversions, hrest⟩ := ih (Nat.succ.inj hlength) <|
      List.countP_eq_zero.2 fun text htext => h text (List.mem_cons_of_mem _ htext)
    cases hconversion : Conversion.ofDocument document options with
    | error fault => exact absurd ((isFailure_verdict _ _).2 ⟨fault, hconversion⟩) hpath
    | ok conversion =>
      obtain ⟨conversion', hdocument, -⟩ := Conversion.ofDocument_renamed options' hconversion
      exact ⟨conversion' :: conversions, .cons hdocument hrest⟩

def Converts (host : Host (StateM σ)) (inputs : Inputs) (rootName : Option String) (s : σ)
    (paths : List String) (conversions : List Conversion) : Prop :=
  ∃ options documents, Loads host inputs s options paths documents ∧
    Converting (options.renamed rootName) documents conversions

theorem Converts.length_eq (h : Converts host inputs rootName s paths conversions) :
    paths.length = conversions.length := by
  obtain ⟨options, documents, hload, hconvert⟩ := h
  exact hload.loadDocuments.length_eq.trans hconvert.length_eq

theorem run_graph_of_converts (h : Converts host inputs rootName s paths conversions)
    (out : Option String) :
    Action.run (run host (.graph inputs rootName out false)) s =
      Action.run (deliver host out (render (conversions.map Conversion.description))) s := by
  obtain ⟨options, documents, hload, hconvert⟩ := h
  rw [run_graph, run_bind_ok (gives_descriptions hload hconvert)]

theorem run_graph_of_not_converts (hhost : host.Shows view)
    (h : ¬∃ paths conversions, Converts host inputs rootName s paths conversions)
    (out : Option String) :
    ∃ chain, Action.run (run host (.graph inputs rootName out false)) s = (.error chain, s) := by
  rw [run_graph]
  obtain ⟨texts, htexts⟩ | ⟨chain, hchain, -⟩ := (reads_descriptions hhost inputs rootName).cases s
  . obtain ⟨options, paths, documents, conversions, hload, hconvert⟩ :=
      of_gives_descriptions hhost htexts
    exact absurd ⟨paths, conversions, options, documents, hload, hconvert⟩ h
  . exact ⟨chain, run_bind_error hchain⟩

theorem run_check_of_converts (hhost : host.Shows view)
    (h : Converts host inputs rootName s paths conversions) :
    Action.run (run host (.check inputs)) s =
      (.ok (), host.printed (List.zipWith verdict paths (conversions.map .ok)) s) := by
  obtain ⟨options, documents, hload, hconvert⟩ := h
  rw [run_check hhost hload, if_pos (failures_eq_zero hconvert _ _), verdicts_eq hconvert]

theorem converts_of_run_check (hhost : host.Shows view) (rootName : Option String)
    (h : (Action.run (run host (.check inputs)) s).1 = .ok ()) :
    ∃ paths conversions, Converts host inputs rootName s paths conversions := by
  obtain ⟨options, paths, documents, hload⟩ | ⟨chain, t, hchain, -⟩ := check_cases hhost inputs s
  . rw [run_check hhost hload] at h
    split at h
    case isTrue hnone =>
      obtain ⟨conversions, hconvert⟩ :=
        exists_converting (options.renamed rootName) hload.loadDocuments.length_eq hnone
      exact ⟨paths, conversions, options, documents, hload, hconvert⟩
    case isFalse => cases h
  . rw [hchain] at h
    cases h

theorem loads_of_tally (hhost : host.Shows view) {failures total : Nat}
    (h : (Action.run (run host (.check inputs)) s).1 = .error [tally failures total]) :
    ∃ options paths documents, Loads host inputs s options paths documents ∧
      (Action.run (run host (.check inputs)) s).2 =
        host.printed (verdicts options paths documents) s ∧
      total = paths.length ∧
      failures = (verdicts options paths documents).countP (fun text => IsFailure text) ∧
      0 < failures := by
  obtain ⟨options, paths, documents, hload⟩ | ⟨chain, t, hchain, htwo⟩ := check_cases hhost inputs s
  . refine ⟨options, paths, documents, hload, ?_⟩
    rw [run_check hhost hload] at h ⊢
    split at h
    case isTrue => cases h
    case isFalse hsome =>
      rw [Except.error.injEq, List.cons.injEq] at h
      obtain ⟨rfl, rfl⟩ := tally_inj h.1
      exact ⟨rfl, rfl, rfl, Nat.pos_of_ne_zero hsome⟩
  . rw [hchain] at h
    cases h
    exact absurd htwo (Nat.not_succ_le_self 1)

/--
A text that holds some descriptions. A single one stands by itself, others are a list.
-/
inductive Holds : String → List Json → Prop where
  | single (description : Json) : Holds description.pretty [description]
  | list {descriptions : List Json} (hlength : descriptions.length ≠ 1) :
    Holds (Json.array descriptions).pretty descriptions

theorem holds_render (descriptions : List Json) : Holds (render descriptions) descriptions := by
  match descriptions with
  | [] => exact .list Nat.zero_ne_one
  | [description] => exact .single description
  | _ :: _ :: _ => exact .list fun hlength => nomatch Nat.succ.inj hlength

/--
How a run ends that writes a text to a file: the directories of the file are made first.
-/
inductive Saves (host : Host (StateM σ)) (path text : String) (s : σ) :
    Except Chain Unit × σ → Prop where
  | written {t u : σ} (hparents : host.makeParents path s = (.ok (), t))
    (hwrite : host.write path text t = (.ok (), u)) : Saves host path text s (.ok (), u)
  | unwritten {t u : σ} {fault : AccessFault} (hparents : host.makeParents path s = (.ok (), t))
    (hwrite : host.write path text t = (.error fault, u)) :
    Saves host path text s (.error [fault.message], u)
  | unmade {t : σ} {fault : AccessFault} (hparents : host.makeParents path s = (.error fault, t)) :
    Saves host path text s (.error [fault.message], t)

theorem saves_deliver (host : Host (StateM σ)) (path text : String) (s : σ) :
    Saves host path text s (Action.run (deliver host (some path) text) s) := by
  unfold deliver
  dsimp only
  rw [run_bind, run_lift]
  rcases hparents : host.makeParents path s with ⟨fault | ⟨⟩, t⟩
  . exact .unmade hparents
  . dsimp only
    rw [run_bind, run_lift]
    rcases hwrite : host.write path text t with ⟨fault | ⟨⟩, u⟩
    . exact .unwritten hparents hwrite
    . exact .written hparents hwrite

theorem Saves.eq_of_ok {path text : String} {r : Except Chain Unit × σ}
    (h : Saves host path text s r) (hparents : (host.makeParents path s).1 = .ok ())
    (hwrite : (host.write path text (host.makeParents path s).2).1 = .ok ()) :
    r = (.ok (), (host.write path text (host.makeParents path s).2).2) := by
  cases h with
  | written hparents' hwrite' =>
    rw [hparents', hwrite']
  | unwritten hparents' hwrite' =>
    rw [hparents', hwrite'] at hwrite
    cases hwrite
  | unmade hparents' =>
    rw [hparents'] at hparents
    cases hparents

/--
`graph` succeeds for the same inputs as `check`. If the inputs cannot be read or converted it
changes nothing, with an output file and without. If they can, it prints one description for each
path, in the order in which `check` reports on the paths, or it writes the same to the output file.
A tally of failures counts what has been printed.
-/
theorem graph_agrees_with_check (hhost : host.Shows view) (inputs : Inputs)
    (rootName : Option String) (s : σ) :
    let graph := fun out => Action.run (run host (.graph inputs rootName out false)) s
    let check := Action.run (run host (.check inputs)) s
    ((graph none).1 = .ok () ↔ check.1 = .ok ()) ∧
    ((¬∃ paths conversions, Converts host inputs rootName s paths conversions) →
      ∀ out, ∃ chain, graph out = (.error chain, s)) ∧
    (∀ paths conversions, Converts host inputs rootName s paths conversions →
      paths.length = conversions.length ∧
      (∃ text, Holds text (conversions.map Conversion.description) ∧
        graph none = (.ok (), (host.print (text ++ "\n") s).2) ∧
        ∀ path, Saves host path text s (graph (some path))) ∧
      check = (.ok (), host.printed (List.zipWith verdict paths (conversions.map .ok)) s)) ∧
    ∀ failures total, check.1 = .error [tally failures total] →
      ∃ options paths documents, Loads host inputs s options paths documents ∧
        check.2 = host.printed (verdicts options paths documents) s ∧
        total = paths.length ∧
        failures = (verdicts options paths documents).countP (fun text => IsFailure text) ∧
        0 < failures := by
  dsimp only
  refine ⟨⟨?_, fun h => ?_⟩, run_graph_of_not_converts hhost, ?_, fun _ _ => loads_of_tally hhost⟩
  . intro h
    by_cases hsome : ∃ paths conversions, Converts host inputs rootName s paths conversions
    . obtain ⟨paths, conversions, hconverts⟩ := hsome
      rw [run_check_of_converts hhost hconverts]
    . obtain ⟨chain, hchain⟩ := run_graph_of_not_converts hhost hsome none
      rw [hchain] at h
      cases h
  . obtain ⟨paths, conversions, hconverts⟩ := converts_of_run_check hhost rootName h
    rw [run_graph_of_converts hconverts]
    rfl
  . intro paths conversions hconverts
    refine ⟨hconverts.length_eq, ⟨_, holds_render _, ?_, ?_⟩, run_check_of_converts hhost hconverts⟩
    . rw [run_graph_of_converts hconverts]
      rfl
    . intro path
      rw [run_graph_of_converts hconverts]
      exact saves_deliver host path _ s

def mixedDisk : Disk :=
  ⟨.directory [("a.json", .file "\x7b\x7d"), ("b.json", .file "1"),
    ("c.json", .file "\x7b\"type\": \"null\"\x7d")], ""⟩

def mixedText : String :=
  "\n".intercalate [
    "[",
    "  \x7b",
    "    \"root\": \"t0\",",
    "    \"types\": \x7b",
    "      \"t0\": \x7b",
    "        \"kind\": \"any\"",
    "      \x7d",
    "    \x7d",
    "  \x7d,",
    "  \x7b",
    "    \"root\": \"t0\",",
    "    \"types\": \x7b",
    "      \"t0\": \x7b",
    "        \"kind\": \"null\"",
    "      \x7d",
    "    \x7d",
    "  \x7d",
    "]"]

theorem converts_mixed : ∃ paths conversions,
    Converts Disk.host ⟨["a.json", "c.json"], none⟩ (some "Item") mixedDisk paths conversions ∧
      ∀ text, Holds text (conversions.map Conversion.description) → text = mixedText := by
  let inputs : Inputs := ⟨["a.json", "c.json"], none⟩
  have htext : ((descriptions Disk.host inputs (some "Item")).run mixedDisk).1.map
      (fun found => (found.length, (Json.array found).pretty)) = .ok (2, mixedText) := by
    decide +kernel
  obtain ⟨found, hfound⟩ | ⟨chain, hchain, -⟩ :=
    (reads_descriptions Disk.host_shows inputs (some "Item")).cases mixedDisk
  . rw [hfound] at htext
    obtain ⟨options, paths, documents, conversions, hload, hconvert⟩ :=
      of_gives_descriptions Disk.host_shows hfound
    obtain ⟨hlength, hlist⟩ := Prod.ext_iff.1 (Except.ok.inj htext)
    refine ⟨paths, conversions, ⟨options, documents, hload, hconvert⟩, ?_⟩
    rw [← Except.ok.inj (congrArg Prod.fst (hfound.symm.trans (gives_descriptions hload hconvert)))]
    rintro text (description | hmany)
    . cases hlength
    . exact hlist
  . rw [hchain] at htext
    cases htext

theorem graph_agrees_with_check_mixed :
    let graph := fun patterns out =>
      Action.run (run Disk.host (.graph ⟨patterns, none⟩ (some "Item") out false)) mixedDisk
    graph ["a.json", "c.json"] none = (.ok (), ⟨mixedDisk.tree, mixedText ++ "\n"⟩) ∧
    (∃ disk, graph ["a.json", "c.json"] (some "out/types.json") = (.ok (), disk) ∧
      disk.tree.read "out/types.json" = .ok mixedText ∧ disk.printed = "") ∧
    (∃ chain, graph ["a.json", "b.json"] (some "out.json") = (.error chain, mixedDisk)) ∧
    ∃ options paths documents,
      Loads Disk.host ⟨["a.json", "b.json"], none⟩ mixedDisk options paths documents ∧
      2 = paths.length ∧
      1 = (verdicts options paths documents).countP fun text => IsFailure text := by
  have hagrees := fun patterns => graph_agrees_with_check Disk.host_shows ⟨patterns, none⟩
    (some "Item") mixedDisk
  have hcheck : (Action.run (run Disk.host (.check ⟨["a.json", "b.json"], none⟩)) mixedDisk).1 =
      .error [tally 1 2] := by
    decide +kernel
  obtain ⟨-, hfailed, hconverted, htally⟩ := hagrees ["a.json", "b.json"]
  obtain ⟨paths, conversions, hconverts, hunique⟩ := converts_mixed
  obtain ⟨-, ⟨text, hholds, hprinted, hsaved⟩, -⟩ :=
    (hagrees ["a.json", "c.json"]).2.2.1 _ _ hconverts
  obtain rfl := hunique text hholds
  have hdisk : (Disk.host.print (mixedText ++ "\n") mixedDisk).2 =
      ⟨mixedDisk.tree, mixedText ++ "\n"⟩ :=
    congrArg (Disk.mk mixedDisk.tree) String.empty_append
  rw [hdisk] at hprinted
  refine ⟨hprinted, ?_, hfailed ?_ _, ?_⟩
  . refine ⟨_, (hsaved "out/types.json").eq_of_ok ?_ ?_, ?_, ?_⟩
    . decide +kernel
    . decide +kernel
    . decide +kernel
    . decide +kernel
  . rintro ⟨paths, conversions, hconverts⟩
    rw [(hconverted paths conversions hconverts).2.2] at hcheck
    cases hcheck
  . obtain ⟨options, paths, documents, hload, -, hlength, hcount, -⟩ := htally 1 2 hcheck
    exact ⟨options, paths, documents, hload, hlength, hcount⟩

end Command

end SchemaGraph
