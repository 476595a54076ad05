import ConfigAudit.Proofs.Scans

/-!
# Extraction previews a scan

Extracting shows what a scan with the same input hands to its program.

* `Launch`, `CommandLine.noting`: the programs that are started, with what they get to read;
* `observe_perform_scan`: what a scan starts, by the document that its input makes;
* `extract_previews_scan`: extraction succeeds if and only if the scan starts its program, and then
  prints the document that the program gets; else both fail alike.
-/

namespace ConfigAudit

/-- A start of a program with arguments in a directory; `input` are the bytes on standard input. -/
structure Launch where
  directory : List String
  program : String
  args : List String
  input : List UInt8
  deriving DecidableEq, Repr

namespace CommandLine

/-- Launchers that note every start. -/
def noting (launch : FileSystem → Launcher Id) :
    FileSystem → Launcher (StateM (List Launch)) := fun fs program args input => do
  modify (· ++ [⟨fs.workDir, program, args, input⟩])
  pure (Id.run (launch fs program args input))

/-- An engine notes one start, with the bytes of the document. -/
theorem run_command_noting (launch : FileSystem → Launcher Id) (fs : FileSystem) (program : String)
    (args : List String) (d : Document) (launches : List Launch) :
    Id.run ((RuleEngine.command (noting launch fs) program args d).run launches) =
      (Id.run (RuleEngine.command (launch fs) program args d),
        launches ++ [⟨fs.workDir, program, args, d.bytes⟩]) := by
  simp only [RuleEngine.command, noting, Id.run_bind]
  cases Id.run (launch fs program args d.bytes) <;> simp

/-- A run together with the programs that it starts. -/
def observe (run : StateM (List Launch) Report) : Report × List Launch := Id.run (run.run [])

/-- A scan starts its program once, with the bytes of the prepared document, or not at all. -/
theorem observe_perform_scan (complaints : Complaints) (launch : FileSystem → Launcher Id)
    (now : Timestamp) (fs : FileSystem) (directories : List String) (input : Input)
    (format : Format) (program : String) (args : List String) :
    observe (perform complaints (noting launch) now fs
        ⟨directories, input, format, .scan program args⟩) =
      match prepare fs directories input with
      | .ok (entered, d) =>
        (.ofScan complaints format (Scanner.conclude now
          (Id.run (RuleEngine.command (launch entered) program args d))),
          [⟨entered.workDir, program, args, d.bytes⟩])
      | .error (.inl messages) => (.failed messages, [])
      | .error (.inr e) => (.failed (e.messages complaints), []) := by
  rw [perform_scan]
  rcases prepare fs directories input with (messages | e) | ⟨entered, d⟩
  · rfl
  · rfl
  · rw [observe, StateT.run_map, Id.run_map, run_command_noting]
    rfl

end CommandLine

open CommandLine in
/-- **Extraction previews a scan.** For every file system, every directory that is entered before
and every input, whatever the program, its arguments and the formats are, extraction succeeds if and
only if a scan of the same input starts its program. Then it starts it once, and the program gets to
read, in compact JSON, the document that extraction prints. Else the directories cannot be entered,
or loading fails, or parsing, and both fail with the messages of this failure, what the parser says
of the text among them; a scan puts its phase in front of them. -/
theorem extract_previews_scan (complaints : Complaints) (launch : FileSystem → Launcher Id)
    (now : Timestamp) (fs : FileSystem) (directories : List String) (input : Input)
    (scanFormat format : Format) (program : String) (args : List String) :
    let scan := observe (perform complaints (noting launch) now fs
      ⟨directories, input, scanFormat, .scan program args⟩)
    let extract := observe (perform complaints (noting launch) now fs
      ⟨directories, input, format, .extract⟩)
    extract.2 = [] ∧ (extract.1.exitCode = 0 ↔ scan.2 ≠ []) ∧
    ((∃ entered sources d, enter fs directories = .ok entered ∧
        input.load entered = .ok sources ∧
        Document.parse? input.nesting sources.concatenated = some d ∧
        extract.1 = .printed (format.render (Document.toJson d)) true ∧
        scan.2 = [⟨entered.workDir, program, args, Utf8.encode (Document.toJson d).compact⟩]) ∨
      scan.2 = [] ∧
        ((∃ messages, enter fs directories = .error messages ∧
          extract.1 = .failed messages ∧ scan.1 = .failed messages) ∨
        (∃ entered e, enter fs directories = .ok entered ∧ input.load entered = .error e ∧
          extract.1 = .failed e.messages ∧
          scan.1 = .failed ((ScanError.load e).message :: e.messages)) ∨
        ∃ entered sources, enter fs directories = .ok entered ∧
          input.load entered = .ok sources ∧
          Document.parse? input.nesting sources.concatenated = none ∧
          let e : ParseError := ⟨sources.concatenated⟩
          extract.1 = .failed [e.message, complaints.configuration e] ∧
          scan.1 = .failed
            [(ScanError.parse e).message, e.message, complaints.configuration e])) := by
  rw [observe_perform_scan, perform_extract]
  rcases prepare_cases fs directories input with
    ⟨entered, sources, d, henter, hload, hd, h⟩ | ⟨messages, henter, h⟩ |
    ⟨entered, e, henter, hload, h⟩ | ⟨entered, sources, henter, hload, hd, h⟩
  · rw [h]
    exact ⟨rfl, ⟨by simp, fun _ => rfl⟩, .inl ⟨entered, sources, d, henter, hload, hd, rfl, rfl⟩⟩
  · rw [h]
    exact ⟨rfl, ⟨nofun, by simp⟩, .inr ⟨rfl, .inl ⟨messages, henter, rfl, rfl⟩⟩⟩
  · rw [h]
    exact ⟨rfl, ⟨nofun, by simp⟩, .inr ⟨rfl, .inr (.inl ⟨entered, e, henter, hload, rfl, rfl⟩)⟩⟩
  · rw [h]
    exact ⟨rfl, ⟨nofun, by simp⟩,
      .inr ⟨rfl, .inr (.inr ⟨entered, sources, henter, hload, hd, rfl, rfl⟩)⟩⟩

open CommandLine in
/-- The program gets to read the document that extraction prints of the file. -/
theorem extract_previews_scan_main :
    let launch : FileSystem → Launcher Id := fun _ _ _ _ => pure (.error .notFound)
    let complaints := Wording.silent.toComplaints
    let scan := observe (perform complaints (noting launch) ⟨0, 0⟩ mainTree mainInvocation)
    let extract := observe (perform complaints (noting launch) ⟨0, 0⟩ mainTree
      { mainInvocation with task := .extract })
    scan.2 = [⟨[], "opa", [], Utf8.encode
      ("\x7b\"resources\":[],\"variables\":\x7b\"region\":\x7b\"name\":\"region\"\x7d\x7d," ++
        "\"outputs\":\x7b\x7d\x7d")⟩] ∧
      extract.1 = .printed (Format.render .json mainDocument.toJson) true := by
  intro launch complaints scan extract
  obtain ⟨-, -, hcases⟩ := extract_previews_scan complaints launch ⟨0, 0⟩ mainTree []
    mainInvocation.input .json .json "opa" []
  have hload : mainInvocation.input.load mainTree = .ok [⟨some "main.tf", mainText⟩] :=
    ofPath_mainTree
  rcases hcases with ⟨entered, sources, d, henter, hsources, hd, hextract, hscan⟩ |
    ⟨-, ⟨messages, henter, -⟩ | ⟨entered, e, henter, hfails, -⟩ |
      ⟨entered, sources, henter, hsources, hnone, -⟩⟩
  · cases henter
    cases hload.symm.trans hsources
    cases parse?_mainTree.symm.trans hd
    exact ⟨hscan.trans (by with_unfolding_all rfl), hextract⟩
  · cases henter
  · cases henter
    cases hload.symm.trans hfails
  · cases henter
    cases hload.symm.trans hsources
    cases parse?_mainTree.symm.trans hnone

end ConfigAudit
