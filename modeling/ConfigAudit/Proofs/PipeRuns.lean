import ConfigAudit.Proofs.Pipes
import Mathlib.Data.Prod.Lex
import Mathlib.Order.WellFounded

/-!
# Runs behind pipes

Whatever order the parent and the program take their steps in, a run comes to what the program does
on its own.

* `State.Sound.exists_step`: a run goes on until the parent returns;
* `wellFounded_step`: it does not go on forever;
* `State.Sound.answer?_eq`: what the parent returns, by what the program wrote and how it exited;
* `pipes_deliver`: all of this for documents.
-/

namespace ConfigAudit

/-! ### Answers -/

namespace Completion

variable {c : Completion} {program : String}

theorem answer_of_json (h : c.status = .code 0) {raw : Json}
    (hraw : (Utf8.decode? c.output).bind Json.parse? = some raw) :
    c.answer program = .ok raw := by
  rw [answer, h, hraw]
  rfl

theorem answer_of_no_json (h : c.status = .code 0)
    (hraw : (Utf8.decode? c.output).bind Json.parse? = none) :
    c.answer program = .error (.output ⟨c.output⟩) := by
  rw [answer, h, hraw]
  rfl

theorem answer_of_failure (h : c.status ≠ .code 0) :
    c.answer program =
      .error (.status program c.status (trimWhiteSpace (Utf8.decodeLenient c.errors))) := by
  have hfailed : c.status.isSuccess = false := by
    cases hstatus : c.status with
    | code n =>
      rw [hstatus] at h
      simpa [ExitStatus.isSuccess] using h
    | signal n => rfl
  rw [answer, hfailed]
  rfl

end Completion

/-- The command engine gives the answer of what its launcher leaves, given the compact text of the
document. -/
theorem RuleEngine.run_command {launch : Launcher Id} {program : String} {args : List String}
    {d : Document} {c : Completion}
    (h : launch program args (Utf8.encode (Document.toJson d).compact) = pure (.ok c)) :
    Id.run (command launch program args d) = c.answer program := by
  rw [command, Document.bytes, h]
  rfl

namespace Pipes

/-! ### Progress -/

namespace State

section

variable {capacities : Capacities} {input : List UInt8} {s : State}

/-- A program that runs goes on, or waits for the thread that writes, if nothing is left in the
pipes from its outputs. -/
theorem Sound.exists_step_of_running (h : s.Sound input) {rest : Script}
    (hchild : s.child = .running rest) (hbuffered : ∀ outlet, (s.outflow outlet).buffered = []) :
    ∃ t, Step capacities s t := by
  cases rest with
  | read limit next =>
    cases hopen : s.inflow.isOpen with
    | false => exact ⟨_, .inr (.read hchild (.closed hopen))⟩
    | true =>
      rcases h.inflow.exists_reads_or_feeds hopen capacities.input limit with
        ⟨received, q, hreads⟩ | ⟨q, hfeeds⟩
      · exact ⟨_, .inr (.read hchild hreads)⟩
      · exact ⟨_, .inl (.feed hfeeds)⟩
  | write outlet bytes next =>
    cases bytes with
    | nil => exact ⟨_, .inr (.written hchild)⟩
    | cons b bytes =>
      cases hopen : (s.outflow outlet).isOpen with
      | false => exact ⟨_, .inr (.refused hchild hopen)⟩
      | true =>
        obtain ⟨q, haccepts⟩ :=
          Outflow.exists_accepts hopen (hbuffered outlet) b (capacities.outlet outlet)
        exact ⟨_, .inr (.write hchild haccepts)⟩
  | closeInput next => exact ⟨_, .inr (.closeInput hchild)⟩
  | closeOutlet outlet next => exact ⟨_, .inr (.closeOutlet hchild)⟩
  | exit status => exact ⟨_, .inr (.exit hchild)⟩

/-- The parent goes on, or waits for the program, until the outputs have ended. -/
theorem Sound.exists_step_of_draining (h : s.Sound input) (hparent : s.parent = .draining) :
    ∃ t, Step capacities s t := by
  by_cases hbuffered : ∃ outlet, (s.outflow outlet).buffered ≠ []
  · obtain ⟨outlet, hne⟩ := hbuffered
    obtain ⟨q, hdrains⟩ := (h.outflow outlet).exists_drains hne
    exact ⟨_, .inl (.drain outlet hparent hdrains)⟩
  · push Not at hbuffered
    cases hchild : s.child with
    | running rest => exact h.exists_step_of_running hchild hbuffered
    | exited status =>
      by_cases hended : ∃ outlet, (s.outflow outlet).ended = false
      · obtain ⟨outlet, hfalse⟩ := hended
        have hclosed := (h.exited status hchild).2 outlet
        exact ⟨_, .inl (.drain outlet hparent (.finish hfalse (hbuffered outlet) hclosed))⟩
      · simp only [not_exists, Bool.not_eq_false] at hended
        exact ⟨_, .inl (.drained hparent hended)⟩

/-- **No run is stuck** before the parent returns. -/
theorem Sound.exists_step (h : s.Sound input) (hparent : ∀ status, s.parent ≠ .returned status) :
    ∃ t, Step capacities s t := by
  cases hphase : s.parent with
  | draining => exact h.exists_step_of_draining hphase
  | waiting =>
    have hended : ∀ outlet, (s.outflow outlet).ended = true :=
      h.drained.resolve_left (by simp [hphase])
    cases hchild : s.child with
    | running rest =>
      exact h.exists_step_of_running hchild fun outlet =>
        ((h.outflow outlet).finished (hended outlet)).1
    | exited status => exact ⟨_, .inl (.reap hphase hchild)⟩
  | joining status =>
    cases hwriter : s.inflow.writer with
    | writing unsent =>
      -- the program has exited, so that the thread cannot wait for it to read
      have hclosed := (h.exited status (h.reaped status (.inl hphase))).1
      obtain ⟨q, hfeeds⟩ := Inflow.exists_feeds hclosed hwriter capacities.input
      exact ⟨_, .inl (.feed hfeeds)⟩
    | finished => exact ⟨_, .inl (.join hphase (by rw [hwriter]; rfl))⟩
    | broken unsent => exact ⟨_, .inl (.join hphase (by rw [hwriter]; rfl))⟩
  | returned status => exact absurd hphase (hparent status)

end

end State

/-! ### Termination -/

/-- What a program may be after one of its steps. -/
inductive Child.Becomes : Child → Child → Prop
  | read (limit : ℕ+) (next : Received → Script) (received : Received) :
    Becomes (.running (.read limit next)) (.running (next received))
  | write (outlet : Outlet) {bytes : List UInt8} (hbytes : bytes ≠ []) (rest : List UInt8)
    (next : Script) :
    Becomes (.running (.write outlet (bytes ++ rest) next)) (.running (.write outlet rest next))
  | written (outlet : Outlet) (bytes : List UInt8) (next : Script) :
    Becomes (.running (.write outlet bytes next)) (.running next)
  | closeInput (next : Script) : Becomes (.running (.closeInput next)) (.running next)
  | closeOutlet (outlet : Outlet) (next : Script) :
    Becomes (.running (.closeOutlet outlet next)) (.running next)
  | exit (status : ExitStatus) : Becomes (.running (.exit status)) (.exited status)

theorem Child.acc_exited (status : ExitStatus) : Acc (flip Becomes) (.exited status) :=
  ⟨_, fun _ h => by cases h⟩

theorem Child.acc_running (script : Script) : Acc (flip Becomes) (.running script) := by
  induction script with
  | read limit next ih =>
    refine ⟨_, fun c h => ?_⟩
    cases h with
    | read _ _ received => exact ih received
  | write outlet bytes next ih =>
    -- a write may take as many steps as it has bytes
    induction hn : bytes.length using Nat.strong_induction_on generalizing bytes with
    | _ n ihn =>
      refine ⟨_, fun c h => ?_⟩
      cases h with
      | @write _ first hfirst rest =>
        refine ihn rest.length ?_ rest rfl
        have hpos := List.length_pos_iff.2 hfirst
        rw [List.length_append] at hn
        omega
      | written => exact ih
  | closeInput next ih =>
    refine ⟨_, fun c h => ?_⟩
    cases h with
    | closeInput => exact ih
  | closeOutlet outlet next ih =>
    refine ⟨_, fun c h => ?_⟩
    cases h with
    | closeOutlet => exact ih
  | exit status =>
    refine ⟨_, fun c h => ?_⟩
    cases h with
    | exit => exact acc_exited status

theorem Child.wellFounded_becomes : WellFounded (flip Becomes) :=
  ⟨fun c => match c with
    | .running script => acc_running script
    | .exited status => acc_exited status⟩

/-- An upper bound for the steps of the writer. -/
def Inflow.work (q : Inflow) : ℕ :=
  match q.writer with
  | .writing unsent => unsent.length + 1
  | _ => 0

/-- An upper bound for the steps of the parent on a pipe, if nothing more is written. -/
def Outflow.work (q : Outflow) : ℕ := q.buffered.length + if q.ended then 0 else 1

/-- How many phases the parent has before it. -/
def Parent.work : Parent → ℕ
  | .draining => 3
  | .waiting => 2
  | .joining _ => 1
  | .returned _ => 0

/-- An upper bound for the steps of the parent, if the program makes none. -/
def State.work (s : State) : ℕ :=
  s.inflow.work + (s.outflow .output).work + (s.outflow .errors).work + s.parent.work

theorem Inflow.Feeds.work_lt {capacity : ℕ+} {q r : Inflow} (h : q.Feeds capacity r) :
    r.work < q.work := by
  cases h with
  | write hwriter hbytes hopen hroom =>
    have hpos := List.length_pos_iff.2 hbytes
    simp only [work, hwriter, List.length_append]
    omega
  | finish hwriter => simp [work, hwriter]
  | breakOff hwriter hunsent hclosed => simp [work, hwriter]

theorem Outflow.Drains.work_lt {q r : Outflow} (h : q.Drains r) : r.work < q.work := by
  cases h with
  | data hended hbuffered hbytes =>
    have hpos := List.length_pos_iff.2 hbytes
    simp only [work, hbuffered, List.length_append]
    omega
  | finish hended hbuffered hclosed => simp [work, hended]

theorem ParentStep.work_lt {capacities : Capacities} {s t : State}
    (h : ParentStep capacities s t) : t.work < s.work := by
  cases h with
  | feed hfeeds =>
    have hlt := hfeeds.work_lt
    simp only [State.work]
    omega
  | drain outlet hparent hdrains =>
    have hlt := hdrains.work_lt
    cases outlet with
    | output =>
      simp only [State.work, Function.update_self, ne_eq, reduceCtorEq, not_false_eq_true,
        Function.update_of_ne]
      omega
    | errors =>
      simp only [State.work, Function.update_self, ne_eq, reduceCtorEq, not_false_eq_true,
        Function.update_of_ne]
      omega
  | drained hparent hended => simp [State.work, hparent, Parent.work]
  | reap hparent hchild => simp [State.work, hparent, Parent.work]
  | join hparent hresult => simp [State.work, hparent, Parent.work]

theorem ParentStep.child_eq {capacities : Capacities} {s t : State}
    (h : ParentStep capacities s t) : t.child = s.child := by
  cases h <;> rfl

theorem ChildStep.becomes {capacities : Capacities} {s t : State} (h : ChildStep capacities s t) :
    s.child.Becomes t.child := by
  cases h with
  | read hchild hreads => rw [hchild]; exact .read _ _ _
  | write hchild haccepts => rw [hchild]; exact .write _ haccepts.ne_nil _ _
  | written hchild => rw [hchild]; exact .written _ _ _
  | refused hchild hclosed => rw [hchild]; exact .written _ _ _
  | closeInput hchild => rw [hchild]; exact .closeInput _
  | closeOutlet hchild => rw [hchild]; exact .closeOutlet _ _
  | exit hchild => rw [hchild]; exact .exit _

/-- **No run goes on forever**: each step brings the program closer to its end, or leaves it where
it is and the parent has less to do. -/
theorem wellFounded_step (capacities : Capacities) : WellFounded (flip (Step capacities)) := by
  have hlex : WellFounded (InvImage (Prod.Lex (flip Child.Becomes) (· < ·))
      fun s : State => (s.child, s.work)) :=
    InvImage.wf _ (Child.wellFounded_becomes.prod_lex Nat.lt_wfRel.wf)
  refine Subrelation.wf (fun {t s} hstep => ?_) hlex
  rcases hstep with hparent | hchild
  · show Prod.Lex _ _ (t.child, t.work) (s.child, s.work)
    rw [hparent.child_eq]
    exact .right _ hparent.work_lt
  · exact .left _ _ hchild.becomes

/-! ### Runs -/

section

variable {capacities : Capacities} {script : Script} {input : List UInt8} {s t : State}

theorem Step.sound (h : s.Sound input) (hstep : Step capacities s t) : t.Sound input :=
  hstep.elim h.parentStep h.childStep

theorem Step.explained (hsound : s.Sound input) (h : s.Explained script input)
    (hstep : Step capacities s t) : t.Explained script input :=
  hstep.elim h.parentStep (State.Explained.childStep hsound h)

/-- What holds at the start holds all along a run. -/
theorem Reachable.sound_explained (h : Reachable capacities script input s) :
    s.Sound input ∧ s.Explained script input := by
  induction h with
  | refl => exact ⟨State.sound_start script input, State.explained_start script input⟩
  | tail _ hstep ih => exact ⟨Step.sound ih.1 hstep, Step.explained ih.1 ih.2 hstep⟩

/-- Every run can be continued to a return. -/
theorem State.Sound.exists_returned (capacities : Capacities) (h : s.Sound input) :
    ∃ t status, Relation.ReflTransGen (Step capacities) s t ∧ t.parent = .returned status := by
  induction s using (wellFounded_step capacities).induction with
  | _ s ih =>
    by_cases hparent : ∃ status, s.parent = .returned status
    · obtain ⟨status, hstatus⟩ := hparent
      exact ⟨s, status, .refl, hstatus⟩
    · push Not at hparent
      have hnext : ∃ t, Step capacities s t := h.exists_step hparent
      obtain ⟨t, hstep⟩ := hnext
      obtain ⟨u, status, hrun, hstatus⟩ := ih t hstep (Step.sound h hstep)
      exact ⟨u, status, .head hstep hrun, hstatus⟩

/-- At the return, the outputs have been captured. -/
theorem State.Sound.captured_eq (h : s.Sound input) {status : ExitStatus}
    (hparent : s.parent = .returned status) (outlet : Outlet) :
    (s.outflow outlet).captured = (s.outflow outlet).written := by
  have hended : ∀ outlet, (s.outflow outlet).ended = true :=
    h.drained.resolve_left (by simp [hparent])
  exact (h.outflow outlet).captured_eq (hended outlet)

/-- What is returned depends on the status and the outputs alone, even if the pipe to the program
broke. -/
theorem State.Sound.answer?_eq (h : s.Sound input) {status : ExitStatus}
    (hparent : s.parent = .returned status) (program : String) :
    s.answer? program = some (Completion.answer program
      ⟨status, (s.outflow .output).written, (s.outflow .errors).written⟩) := by
  rw [← h.captured_eq hparent, ← h.captured_eq hparent, answer?, hparent]
  obtain ⟨result, hresult⟩ := h.joined status hparent
  cases hwriter : s.inflow.writer with
  | writing unsent =>
    rw [hwriter] at hresult
    cases hresult
  | finished => rfl
  | broken unsent => rfl

/-- What the program did, it does on its own, too. -/
theorem State.Explained.runs (h : s.Explained script input) {status : ExitStatus}
    (hchild : s.child = .exited status) :
    script.Runs .all input (fun outlet => (s.outflow outlet).written) status := by
  rw [Explained, hchild] at h
  exact h

/-- Two runs of a program that does not depend on timing return the same. -/
theorem Reachable.answer?_congr (hs : Reachable capacities script input s)
    (htiming : script.TimingIndependent input) {status : ExitStatus}
    (hparent : s.parent = .returned status) {capacities' : Capacities}
    (ht : Reachable capacities' script input t) {status' : ExitStatus}
    (hparent' : t.parent = .returned status') (program : String) :
    s.answer? program = t.answer? program := by
  obtain ⟨hsound, hexplained⟩ := hs.sound_explained
  obtain ⟨hsound', hexplained'⟩ := ht.sound_explained
  have hruns := hexplained.runs (hsound.reaped status (.inr hparent))
  have hruns' := hexplained'.runs (hsound'.reaped status' (.inr hparent'))
  obtain ⟨hwritten, rfl⟩ := htiming _ _ _ _ hruns hruns'
  rw [hsound.answer?_eq hparent, hsound'.answer?_eq hparent', congrFun hwritten .output,
    congrFun hwritten .errors]

end

/-- **Pipes deliver.** For every document, program, capacity and order of steps, with the compact
JSON text of the document as input:

* a run ends, and is not stuck before the program has exited, the thread that writes has ended, and
  the parent has returned;
* what the program has read is the front of the input, and all of it once the program has seen the
  end;
* at the return, what was captured is what the program wrote, which is what it may write on its own
  given the input;
* the answer is the JSON value that the program wrote to its output if it exited with 0, or a
  failure with the output if that is no JSON, and else a failure with the status and what it wrote
  to its errors. The command engine answers the same with every launcher that, given this input,
  leaves at once what the run leaves.

The answer to a program that does not depend on timing is the same for all capacities and orders,
whether or not the pipe to the program breaks. -/
theorem pipes_deliver (d : Document) (script : Script) (program : String) (args : List String) :
    let input := Utf8.encode (Document.toJson d).compact
    (∀ capacities,
      WellFounded (flip (Step capacities)) ∧
      ∀ s, Reachable capacities script input s →
        ((∀ t, ¬Step capacities s t) → ∃ status result, s.parent = .returned status ∧
          s.child = .exited status ∧ s.inflow.writer.result? = some result) ∧
        (∃ t status, Relation.ReflTransGen (Step capacities) s t ∧ t.parent = .returned status) ∧
        s.inflow.read <+: input ∧ (s.inflow.sawEnd = true → s.inflow.read = input) ∧
        ∀ status, s.parent = .returned status →
          let output := (s.outflow .output).written
          let errors := (s.outflow .errors).written
          (∀ outlet, (s.outflow outlet).captured = (s.outflow outlet).written) ∧
          script.Runs .all input (fun outlet => (s.outflow outlet).written) status ∧
          (status = .code 0 → ∀ raw, (Utf8.decode? output).bind Json.parse? = some raw →
            s.answer? program = some (.ok raw)) ∧
          (status = .code 0 → (Utf8.decode? output).bind Json.parse? = none →
            s.answer? program = some (.error (.output ⟨output⟩))) ∧
          (status ≠ .code 0 → s.answer? program =
            some (.error (.status program status (trimWhiteSpace (Utf8.decodeLenient errors))))) ∧
          ∀ launch : Launcher Id, launch program args input = pure (.ok ⟨status, output, errors⟩) →
            s.answer? program = some (Id.run (RuleEngine.command launch program args d))) ∧
    (script.TimingIndependent input →
      ∃ answer, ∀ capacities s status, Reachable capacities script input s →
        s.parent = .returned status → s.answer? program = some answer) := by
  intro input
  refine ⟨fun capacities => ⟨wellFounded_step capacities, fun s hs => ?_⟩, fun htiming => ?_⟩
  · obtain ⟨hsound, hexplained⟩ := hs.sound_explained
    refine ⟨fun hstuck => ?_, hsound.exists_returned capacities, ⟨_, hsound.inflow.sent⟩,
      hsound.inflow.seen, fun status hparent => ?_⟩
    · by_contra hnot
      have hparent : ∀ status, s.parent ≠ .returned status := by
        intro status hparent
        obtain ⟨result, hresult⟩ := hsound.joined status hparent
        exact hnot ⟨status, result, hparent, hsound.reaped status (.inr hparent), hresult⟩
      obtain ⟨t, hstep⟩ := hsound.exists_step hparent
      exact hstuck t hstep
    · intro output errors
      have hanswer := hsound.answer?_eq hparent program
      refine ⟨hsound.captured_eq hparent, hexplained.runs (hsound.reaped status (.inr hparent)),
        fun hstatus raw hraw => ?_, fun hstatus hraw => ?_, fun hstatus => ?_,
        fun launch hlaunch => ?_⟩
      · rw [hanswer, Completion.answer_of_json hstatus hraw]
      · rw [hanswer, Completion.answer_of_no_json hstatus hraw]
      · rw [hanswer, Completion.answer_of_failure hstatus]
      · rw [hanswer, RuleEngine.run_command hlaunch]
  · -- the answer is that of some run with the smallest pipes
    have hstart := State.sound_start script input
    obtain ⟨t, ended, hrun, hended⟩ :=
      hstart.exists_returned ⟨⟨1, Nat.one_pos⟩, fun _ => ⟨1, Nat.one_pos⟩⟩
    have hanswer := (Reachable.sound_explained hrun).1.answer?_eq hended program
    exact ⟨_, fun capacities s status hs hparent =>
      (hs.answer?_congr htiming hparent hrun hended program).trans hanswer⟩

/-- A program that reads its input to the end and then writes an empty object. -/
def answeringScript : Script :=
  .readAll ⟨4, by decide⟩
    (fun _ => .ofActs (.code 0) [.write .output (Utf8.encode "\x7b\x7d")]) 100 []

theorem pipes_deliver_answering :
    let input := Utf8.encode (Document.toJson .empty).compact
    answeringScript.TimingIndependent input ∧
      (∃ answer, ∀ capacities s status, Reachable capacities answeringScript input s →
        s.parent = .returned status → s.answer? "opa" = some answer) ∧
      ∀ capacities, ∃ s, Reachable capacities answeringScript input s ∧
        s.answer? "opa" = some (.ok (.object [])) := by
  intro input
  have hinput : input.length < 100 := by decide +kernel
  have htiming : answeringScript.TimingIndependent input :=
    Script.timingIndependent_readAll hinput (Script.timingIndependent_ofActs _ _ _)
  obtain ⟨hruns, hsame⟩ := pipes_deliver .empty answeringScript "opa" []
  refine ⟨htiming, hsame htiming, fun capacities => ?_⟩
  obtain ⟨-, hdelivers⟩ := hruns capacities
  obtain ⟨-, ⟨s, status, hs, hparent⟩, -⟩ := hdelivers _ .refl
  obtain ⟨-, -, -, -, hreturned⟩ := hdelivers s hs
  obtain ⟨-, hscript, hok, -⟩ := hreturned status hparent
  obtain ⟨hwritten, hstatus⟩ := Script.runs_ofActs (Script.runs_readAll rfl hinput hscript)
  refine ⟨s, hs, hok hstatus (.object []) ?_⟩
  rw [congrFun hwritten .output]
  with_unfolding_all rfl

end Pipes

end ConfigAudit
