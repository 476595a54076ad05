import ConfigAudit.CommandLine.Basic
import ConfigAudit.Proofs.Loading

/-!
# Phases of a scan

A scan loads, parses and evaluates, in this order, and gives a result only if all three succeed.

* `Scanner.prepare`: what a scan makes of loaded texts before it asks the engine;
* `scanLoaded_eq`, `CommandLine.scan_eq`, `CommandLine.extract_eq`: scans and extracts in terms of
  it;
* `Scanner.Phased`: how a scan ends, phase by phase, and what the engine was asked;
* `CommandLine.prepare`, `perform_scan`, `perform_extract`: the same for whole command lines;
* `scan_all_or_nothing`: all scans are phased, and the command line tells the result.
-/

namespace ConfigAudit

namespace Scanner

/-- The document that loaded texts make, or the failure of the phases before evaluation. -/
def prepare (nesting : NestingTable) : Except LoadError Sources → Except ScanError Document
  | .ok sources =>
    match Document.parse? nesting sources.concatenated with
    | some d => .ok d
    | none => .error (.parse ⟨sources.concatenated⟩)
  | .error cause => .error (.load cause)

/-- The result that an answer of the engine makes, or the failure of the evaluation. -/
def conclude (now : Timestamp) : Except EngineError Json → Except ScanError ScanResult
  | .ok raw => .ok (ScanResult.ofEvaluation (Evaluation.ofJson raw) now)
  | .error cause => .error (.evaluate cause)

section Monad

variable {m : Type → Type} [Monad m] [LawfulMonad m]

theorem scanDocument_eq (scanner : Scanner m) (now : Timestamp) (d : Document) :
    scanner.scanDocument now d = conclude now <$> scanner.engine d := by
  rw [scanDocument, map_eq_pure_bind]
  congr 1
  funext answer
  cases answer <;> rfl

/-- A scan asks the engine about the prepared document, once, or fails before. -/
theorem scanLoaded_eq (scanner : Scanner m) (now : Timestamp)
    (loaded : Except LoadError Sources) :
    scanner.scanLoaded now loaded =
      match prepare scanner.nesting loaded with
      | .ok d => conclude now <$> scanner.engine d
      | .error e => pure (.error e) := by
  cases loaded with
  | error cause => rfl
  | ok sources =>
    rw [scanLoaded, scanSources, scanText, prepare]
    cases Document.parse? scanner.nesting sources.concatenated with
    | none => rfl
    | some d => exact scanDocument_eq scanner now d

end Monad

end Scanner

/-! ### Phases -/

/-- An engine that notes the documents it is asked about. -/
def RuleEngine.noting (engine : Document → Except EngineError Json) :
    RuleEngine (StateM (List Document)) := fun d => do
  modify (· ++ [d])
  pure (engine d)

namespace Scanner

/-- How a scan of loaded texts ends, together with the documents that its engine was asked about. It
is asked once about the document of the concatenation, if there is one. Loading fails first, parsing
next, the engine last; otherwise the result holds the findings of the answer. -/
structure Phased (engine : Document → Except EngineError Json) (nesting : NestingTable)
    (now : Timestamp) (loaded : Except LoadError Sources)
    (scanned : Except ScanError ScanResult × List Document) : Prop where
  asked : ∀ d, scanned.2 = [d] ↔
    ∃ sources, loaded = .ok sources ∧ Document.parse? nesting sources.concatenated = some d
  notAsked : scanned.2 = [] ↔
    ¬∃ sources d, loaded = .ok sources ∧ Document.parse? nesting sources.concatenated = some d
  load : ∀ e, scanned.1 = .error (.load e) ↔ loaded = .error e
  parse : ∀ e, scanned.1 = .error (.parse e) ↔
    ∃ sources, loaded = .ok sources ∧ Document.parse? nesting sources.concatenated = none ∧
      e = ⟨sources.concatenated⟩
  evaluate : ∀ e, scanned.1 = .error (.evaluate e) ↔
    ∃ sources d, loaded = .ok sources ∧ Document.parse? nesting sources.concatenated = some d ∧
      engine d = .error e
  result : ∀ r, scanned.1 = .ok r ↔
    ∃ sources d raw, loaded = .ok sources ∧
      Document.parse? nesting sources.concatenated = some d ∧ engine d = .ok raw ∧
      r = ScanResult.ofEvaluation (Evaluation.ofJson raw) now

variable (engine : Document → Except EngineError Json) (nesting : NestingTable)
  (options : SourceOptions) (now : Timestamp)

/-- A scanner with an engine that notes what it is asked about. -/
def noting : Scanner (StateM (List Document)) :=
  { engine := .noting engine, nesting, options }

/-- What a scan gives, with the documents that it asked about. -/
def observe (scan : StateM (List Document) (Except ScanError ScanResult)) :
    Except ScanError ScanResult × List Document := Id.run (scan.run [])

theorem observe_scanLoaded (loaded : Except LoadError Sources) :
    observe ((noting engine nesting options).scanLoaded now loaded) =
      match prepare nesting loaded with
      | .ok d => (conclude now (engine d), [d])
      | .error e => (.error e, []) := by
  rw [observe, scanLoaded_eq, noting]
  cases prepare nesting loaded <;> rfl

/-- **The phases of a scan** follow each other, each one only if the one before it succeeded. -/
theorem phased_scanLoaded (loaded : Except LoadError Sources) :
    Phased engine nesting now loaded
      (observe ((noting engine nesting options).scanLoaded now loaded)) := by
  rw [observe_scanLoaded]
  cases loaded with
  | error cause => constructor <;> simp [prepare]
  | ok sources =>
    rw [prepare]
    cases hd : Document.parse? nesting sources.concatenated with
    | none => constructor <;> simp [hd, eq_comm]
    | some d =>
      cases ha : engine d with
      | error cause => constructor <;> simp [conclude, hd, ha]
      | ok raw => constructor <;> simp [conclude, hd, ha, eq_comm]

end Scanner

/-! ### Findings of an answer -/

/-- Whether an answer of an engine holds a well-formed finding among the violations. -/
def Evaluation.ReportsViolation (raw : Json) : Prop :=
  ∃ items item, raw.get? "violations" = some (.array items) ∧ item ∈ items ∧
    (Finding.ofJson? item).isSome

theorem Evaluation.violations_eq_nil_iff {raw : Json} :
    (Evaluation.ofJson raw).violations = [] ↔ ¬ReportsViolation raw := by
  rw [ofJson, collection, ReportsViolation]
  cases hraw : raw.get? "violations" with
  | none => simp
  | some j =>
    cases j with
    | array items => simp [Json.array?, List.filterMap_eq_nil_iff, Option.isSome_iff_ne_none]
    | _ => simp [Json.array?]

/-! ### Printed texts -/

namespace Yaml

theorem line_ne_nil (text : List Char) : line text ≠ [] := by
  rw [line]
  split_ifs with h
  · rintro rfl
    exact Bool.false_ne_true h
  · simp

theorem keyPart_ne_nil (column : Nat) (key : String) : keyPart column key ≠ [] := by
  rw [keyPart]
  split_ifs <;> simp

theorem node_ne_nil (place : Place) (column : Nat) (j : Json) : node place column j ≠ [] := by
  rcases j with _ | (_ | _) | n | s | (_ | ⟨first, rest⟩) | (_ | ⟨⟨key, first⟩, rest⟩)
  · exact line_ne_nil _
  · exact line_ne_nil _
  · exact line_ne_nil _
  · exact line_ne_nil _
  · exact line_ne_nil _
  · exact line_ne_nil _
  · simp [node]
  · exact line_ne_nil _
  · simp [node, keyPart_ne_nil]

end Yaml

namespace CommandLine

/-- Every result has a text. -/
theorem render_ne_empty (format : Format) (j : Json) : format.render j ≠ "" := by
  cases format with
  | json => simp [Format.render]
  | yaml =>
    intro h
    have hchars := congrArg String.toList h
    rw [Format.render, Yaml.print, String.toList_ofList] at hchars
    exact Yaml.node_ne_nil _ _ _ hchars

/-! ### The command line -/

/-- The report on a scan. -/
def Report.ofScan (complaints : Complaints) (format : Format) :
    Except ScanError ScanResult → Report
  | .ok result => .printed (format.render result.toJson) (!result.hasViolations)
  | .error e => .failed (e.messages complaints)

section

variable (complaints : Complaints)

/-- The command line scans what its input loads. -/
theorem scan_eq {m : Type → Type} [Monad m] [LawfulMonad m] (engine : RuleEngine m)
    (now : Timestamp) (fs : FileSystem) (input : Input) (format : Format) :
    scan complaints engine now fs input format =
      match Scanner.prepare input.nesting (input.load fs) with
      | .ok d =>
        (fun answer => .ofScan complaints format (Scanner.conclude now answer)) <$> engine d
      | .error e => pure (.failed (e.messages complaints)) := by
  have hscan : scan complaints engine now fs input format =
      Report.ofScan complaints format <$>
        Scanner.scanLoaded ⟨engine, input.nesting, input.options⟩ now (input.load fs) := by
    obtain ⟨paths, options, follow⟩ := input
    rw [scan, map_eq_pure_bind]
    -- one path and several paths are loaded alike on both sides
    rcases paths with _ | ⟨path, _ | ⟨second, rest⟩⟩
    · exact bind_congr fun scanned => by cases scanned <;> rfl
    · exact bind_congr fun scanned => by cases scanned <;> rfl
    · exact bind_congr fun scanned => by cases scanned <;> rfl
  rw [hscan, Scanner.scanLoaded_eq]
  cases Scanner.prepare input.nesting (input.load fs) with
  | ok d => simp
  | error e => simp; rfl

theorem extract_eq (fs : FileSystem) (input : Input) (format : Format) :
    extract complaints fs input format =
      match Scanner.prepare input.nesting (input.load fs) with
      | .ok d => .printed (format.render d.toJson) true
      | .error e => .failed (e.causes complaints) := by
  rw [extract]
  cases input.load fs with
  | error e => rfl
  | ok sources =>
    simp only [Scanner.prepare]
    cases Document.parse? input.nesting sources.concatenated <;> rfl

/-- The document that an input makes behind directories. The failure is that of the directories, or
that of the phases of a scan before evaluation. -/
def prepare (fs : FileSystem) (directories : List String) (input : Input) :
    Except (List String ⊕ ScanError) (FileSystem × Document) :=
  match enter fs directories with
  | .error messages => .error (.inl messages)
  | .ok entered =>
    match Scanner.prepare input.nesting (input.load entered) with
    | .ok d => .ok (entered, d)
    | .error e => .error (.inr e)

/-- Directories are entered, texts loaded and parsed, and the first of the three that fails gives
the failure. -/
theorem prepare_cases (fs : FileSystem) (directories : List String) (input : Input) :
    (∃ entered sources d, enter fs directories = .ok entered ∧ input.load entered = .ok sources ∧
      Document.parse? input.nesting sources.concatenated = some d ∧
      prepare fs directories input = .ok (entered, d)) ∨
    (∃ messages, enter fs directories = .error messages ∧
      prepare fs directories input = .error (.inl messages)) ∨
    (∃ entered e, enter fs directories = .ok entered ∧ input.load entered = .error e ∧
      prepare fs directories input = .error (.inr (.load e))) ∨
    ∃ entered sources, enter fs directories = .ok entered ∧ input.load entered = .ok sources ∧
      Document.parse? input.nesting sources.concatenated = none ∧
      prepare fs directories input = .error (.inr (.parse ⟨sources.concatenated⟩)) := by
  rw [prepare]
  cases enter fs directories with
  | error messages => exact .inr (.inl ⟨messages, rfl, rfl⟩)
  | ok entered =>
    cases hload : input.load entered with
    | error e => exact .inr (.inr (.inl ⟨entered, e, rfl, hload, by simp [hload, Scanner.prepare]⟩))
    | ok sources =>
      cases hd : Document.parse? input.nesting sources.concatenated with
      | none =>
        exact .inr (.inr (.inr ⟨entered, sources, rfl, hload, hd,
          by simp [hload, Scanner.prepare, hd]⟩))
      | some d =>
        exact .inl ⟨entered, sources, d, rfl, hload, hd, by simp [hload, Scanner.prepare, hd]⟩

theorem perform_scan {m : Type → Type} [Monad m] [LawfulMonad m] (launch : FileSystem → Launcher m)
    (now : Timestamp) (fs : FileSystem) (directories : List String) (input : Input)
    (format : Format) (program : String) (args : List String) :
    perform complaints launch now fs ⟨directories, input, format, .scan program args⟩ =
      match prepare fs directories input with
      | .ok (entered, d) =>
        (fun answer => .ofScan complaints format (Scanner.conclude now answer)) <$>
          RuleEngine.command (launch entered) program args d
      | .error (.inl messages) => pure (.failed messages)
      | .error (.inr e) => pure (.failed (e.messages complaints)) := by
  unfold perform prepare
  cases enter fs directories with
  | error messages => rfl
  | ok entered =>
    simp only [scan_eq]
    cases Scanner.prepare input.nesting (input.load entered) <;> rfl

theorem perform_extract {m : Type → Type} [Monad m] (launch : FileSystem → Launcher m)
    (now : Timestamp) (fs : FileSystem) (directories : List String) (input : Input)
    (format : Format) :
    perform complaints launch now fs ⟨directories, input, format, .extract⟩ =
      match prepare fs directories input with
      | .ok (_, d) => pure (.printed (format.render d.toJson) true)
      | .error (.inl messages) => pure (.failed messages)
      | .error (.inr e) => pure (.failed (e.causes complaints)) := by
  unfold perform prepare
  cases enter fs directories with
  | error messages => rfl
  | ok entered =>
    simp only [extract_eq]
    cases Scanner.prepare input.nesting (input.load entered) <;> rfl

/-- Whether `raw` is the answer in which all phases of a scan end: the directories are entered, the
texts loaded and parsed, and the program answers the document. -/
def Answered (launch : FileSystem → Launcher Id) (fs : FileSystem) (invocation : Invocation)
    (program : String) (args : List String) (raw : Json) : Prop :=
  ∃ entered sources d, enter fs invocation.directories = .ok entered ∧
    invocation.input.load entered = .ok sources ∧
    Document.parse? invocation.input.nesting sources.concatenated = some d ∧
    Id.run (RuleEngine.command (launch entered) program args d) = .ok raw

/-- A scan of the command line prints the result of the answer, or fails without one. -/
theorem perform_scan_cases (launch : FileSystem → Launcher Id) (now : Timestamp) (fs : FileSystem)
    {invocation : Invocation} {program : String} {args : List String}
    (htask : invocation.task = .scan program args) :
    (∃ raw, Id.run (perform complaints launch now fs invocation) =
        .printed (invocation.format.render
          (ScanResult.ofEvaluation (Evaluation.ofJson raw) now).toJson)
          (Evaluation.ofJson raw).violations.isEmpty ∧
      ∀ answer, Answered launch fs invocation program args answer ↔ answer = raw) ∨
    ∃ messages, Id.run (perform complaints launch now fs invocation) = .failed messages ∧
      ∀ answer, ¬Answered launch fs invocation program args answer := by
  obtain ⟨directories, input, format, task⟩ := invocation
  obtain rfl : task = .scan program args := htask
  rw [perform_scan]
  unfold Answered
  rcases prepare_cases fs directories input with
    ⟨entered, sources, d, henter, hload, hd, h⟩ | ⟨messages, henter, h⟩ |
    ⟨entered, e, henter, hload, h⟩ | ⟨entered, sources, henter, hload, hd, h⟩
  · simp only [h, Id.run_map]
    cases ha : Id.run (RuleEngine.command (launch entered) program args d) with
    | error cause => exact .inr ⟨_, rfl, by simp [henter, hload, hd, ha]⟩
    | ok raw =>
      refine .inl ⟨raw, ?_, by simp [henter, hload, hd, ha, eq_comm]⟩
      simp [Scanner.conclude, Report.ofScan, ScanResult.hasViolations, ScanResult.ofEvaluation]
  · simp only [h]
    exact .inr ⟨messages, rfl, by simp [henter]⟩
  · simp only [h]
    exact .inr ⟨_, rfl, by simp [henter, hload]⟩
  · simp only [h]
    exact .inr ⟨_, rfl, by simp [henter, hload, hd]⟩

end

end CommandLine

/-- **A scan is all or nothing**, for every engine, nesting, file system and choice of files.

* The scans of a path, of files and of loaded texts load, parse and evaluate in this order. The
  engine is asked once, about the document of the concatenated texts, if there is one; the first
  phase that fails gives the failure, and there is a result only if none does.
* Loading fails if any file fails to be read, whatever the others hold.
* The command line prints a result if and only if all phases succeed. It ends with 0 if and only if,
  in addition, no well-formed finding is among the violations of the answer, else with 1. -/
theorem scan_all_or_nothing (engine : Document → Except EngineError Json) (nesting : NestingTable)
    (options : SourceOptions) (now : Timestamp) (fs : FileSystem) :
    (∀ path, Scanner.Phased engine nesting now (Sources.ofPath fs options path)
      (Scanner.observe ((Scanner.noting engine nesting options).scanPath fs now path))) ∧
    (∀ paths, Scanner.Phased engine nesting now (Sources.ofFiles fs paths)
      (Scanner.observe ((Scanner.noting engine nesting options).scanFiles fs now paths))) ∧
    (∀ sources, Scanner.Phased engine nesting now (.ok sources)
      (Scanner.observe ((Scanner.noting engine nesting options).scanSources now sources))) ∧
    (∀ path, ((∃ e, Sources.ofPath fs options path = .error e) ↔
      fs.attemptsAt options path = [] ∨ ∃ e, .error e ∈ fs.attemptsAt options path)) ∧
    (∀ paths, ((∃ e, Sources.ofFiles fs paths = .error e) ↔
      ∃ path ∈ paths, ∃ cause, fs.readText path = .error cause)) ∧
    ∀ (wording : CommandLine.Wording) (launch : FileSystem → Launcher Id) (words : List String)
      invocation program args,
      CommandLine.Invocation.ofWords words = .ok invocation →
      invocation.task = .scan program args →
      let report := Id.run (CommandLine.run wording launch now fs words)
      let answered := CommandLine.Answered launch fs invocation program args
      (report.output ≠ "" ↔ ∃ raw, answered raw) ∧
      (∀ raw, answered raw → report.output = invocation.format.render
        (ScanResult.ofEvaluation (Evaluation.ofJson raw) now).toJson) ∧
      (report.exitCode = 0 ↔ ∃ raw, answered raw ∧ ¬Evaluation.ReportsViolation raw) ∧
      (report.exitCode = 0 ∨ report.exitCode = 1) := by
  refine ⟨fun path => Scanner.phased_scanLoaded .., fun paths => Scanner.phased_scanLoaded ..,
    fun sources => Scanner.phased_scanLoaded .., fun path => Sources.ofPath_fails_iff,
    fun paths => Sources.ofFiles_fails_iff, ?_⟩
  intro wording launch words invocation program args hwords htask
  simp only [CommandLine.run, hwords]
  rcases CommandLine.perform_scan_cases wording.toComplaints launch now fs htask with
    ⟨raw, hreport, hanswered⟩ | ⟨messages, hreport, hanswered⟩
  · simp only [hreport, hanswered, ← Evaluation.violations_eq_nil_iff, CommandLine.Report.printed]
    cases hclean : (Evaluation.ofJson raw).violations with
    | nil => simp [hclean, CommandLine.render_ne_empty]
    | cons finding rest => simp [hclean, CommandLine.render_ne_empty]
  · simp [hreport, hanswered, CommandLine.Report.failed]

/-- A text that declares a variable. -/
def mainText : String := "variable \"region\" \x7b\x7d\n"

/-- The document of the text. -/
def mainDocument : Document := { Document.empty with inputs := [("region", ⟨"region"⟩)] }

/-- A file system that holds the text as its only file. -/
def mainTree : FileSystem where
  root := .directory [("main.tf", .file (Utf8.encode mainText))]
  workDir := []

theorem ofPath_mainTree :
    Sources.ofPath mainTree .standard "main.tf" = .ok [⟨some "main.tf", mainText⟩] := by
  have hnames : Path.names "main.tf" = ["main.tf"] :=
    Path.names_of_notMem (by decide) (by decide)
  have hresolve : mainTree.resolve "main.tf" =
      .ok ⟨["main.tf"], .file (Utf8.encode mainText), FileSystem.maxLinks⟩ := by
    simp +decide [FileSystem.resolve, FileSystem.resolveNames, Path.flaw?, mainTree,
      FileNode.descend?, FileNode.named?, hnames]
  have hread : mainTree.readText "main.tf" = .ok mainText := by
    rw [FileSystem.readText, hresolve]
    with_unfolding_all rfl
  rw [Sources.ofPath, hresolve]
  simp [FileNode.isDirectory, Loading.complete, Loading.file, hread, Loading.insert, Sources.insert]

theorem parse?_mainTree :
    Document.parse? .standard (Sources.concatenated [⟨some "main.tf", mainText⟩]) =
      some mainDocument := by
  with_unfolding_all rfl

namespace CommandLine

/-- Parsers that say nothing. -/
def Wording.silent : Wording where
  configuration := fun _ => ""
  json := fun _ => ""
  help := fun _ => ""
  misuse := fun _ => ""

/-- What the file is scanned as. -/
def mainInvocation : Invocation := ⟨[], ⟨["main.tf"], .standard, []⟩, .json, .scan "opa" []⟩

end CommandLine

open CommandLine in
/-- A program that answers with an empty object finds nothing in the file. -/
theorem scan_all_or_nothing_clean :
    Invocation.ofWords ["scan", "--engine", "opa", "main.tf"] = .ok mainInvocation ∧
      let launch : FileSystem → Launcher Id := fun _ _ _ _ =>
        pure (.ok ⟨.code 0, Utf8.encode "\x7b\x7d", []⟩)
      let report := Id.run
        (run .silent launch ⟨0, 0⟩ mainTree ["scan", "--engine", "opa", "main.tf"])
      report.output ≠ "" ∧ report.exitCode = 0 := by
  have hwords : Invocation.ofWords ["scan", "--engine", "opa", "main.tf"] = .ok mainInvocation := by
    rfl
  refine ⟨hwords, ?_⟩
  intro launch report
  obtain ⟨-, -, -, -, -, hcommand⟩ :=
    scan_all_or_nothing (fun _ => .ok (.object [])) .standard .standard ⟨0, 0⟩ mainTree
  obtain ⟨hprinted, -, hclean, -⟩ := hcommand .silent launch _ _ _ _ hwords rfl
  have hanswered : Answered launch mainTree mainInvocation "opa" [] (.object []) :=
    ⟨mainTree, _, mainDocument, rfl, ofPath_mainTree, parse?_mainTree, by with_unfolding_all rfl⟩
  have hnone : ¬Evaluation.ReportsViolation (.object []) := by
    rintro ⟨items, item, hitems, -⟩
    cases hitems
  exact ⟨hprinted.2 ⟨_, hanswered⟩, hclean.2 ⟨_, hanswered, hnone⟩⟩

end ConfigAudit
