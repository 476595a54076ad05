import ConfigAudit.Engine.Pipes
import Mathlib.Tactic.SplitIfs

/-!
# Bytes in pipes

What programs do on their own, and what every state of a run satisfies, whatever order the parent
and the program take their steps in.

* `Script.timingIndependent_ofActs`, `Script.timingIndependent_readAll`: programs that do the same
  always;
* `Inflow.Sound`, `Outflow.Sound`: no byte is lost or made up in a pipe;
* `State.Sound`: this, and what each side knows about the other;
* `State.Explained`: what the program has done and may yet do, it may do on its own.

The invariants hold at the start and are kept by each step of the parent and of the program.
-/

namespace ConfigAudit

/-! ### Programs on their own -/

namespace Script

theorem prepend_append (outlet : Outlet) (bytes rest : List UInt8) (written : Outlet → List UInt8) :
    prepend outlet (bytes ++ rest) written = prepend outlet bytes (prepend outlet rest written) := by
  simp [prepend]

theorem prepend_nil (outlet : Outlet) (written : Outlet → List UInt8) :
    prepend outlet [] written = written := Function.update_eq_self outlet written

theorem append_prepend (outlet : Outlet) (bytes : List UInt8) (written later : Outlet → List UInt8) :
    (fun o => written o ++ prepend outlet bytes later o) =
      fun o => Function.update written outlet (written outlet ++ bytes) o ++ later o := by
  funext o
  rcases eq_or_ne o outlet with rfl | hne
  · simp [prepend]
  · simp [prepend, hne]

/-- A write of nothing does nothing. -/
theorem runs_write_nil {outlet : Outlet} {next : Script} {ends : Ends} {input : List UInt8}
    {written : Outlet → List UInt8} {status : ExitStatus}
    (h : next.Runs ends input written status) :
    (write outlet [] next).Runs ends input written status := by
  rw [Runs]
  split_ifs
  · exact ⟨written, h, (prepend_nil outlet written).symm⟩
  · exact h

/-- A write may be split. -/
theorem runs_write_append {outlet : Outlet} {bytes rest : List UInt8} {next : Script} {ends : Ends}
    {input : List UInt8} {later : Outlet → List UInt8} {status : ExitStatus}
    (hopen : ends.outlet outlet = true)
    (h : (write outlet rest next).Runs ends input later status) :
    (write outlet (bytes ++ rest) next).Runs ends input (prepend outlet bytes later) status := by
  simp only [Runs, hopen, if_true] at h ⊢
  obtain ⟨last, hnext, rfl⟩ := h
  exact ⟨last, hnext, (prepend_append outlet bytes rest last).symm⟩

/-! #### Independence of timing -/

/-- What acts write, if a program holds some ends. -/
def writtenBy : List Act → Ends → Outlet → List UInt8
  | [], _ => fun _ => []
  | .read _ :: acts, ends => writtenBy acts ends
  | .write outlet bytes :: acts, ends =>
    if ends.outlet outlet then prepend outlet bytes (writtenBy acts ends) else writtenBy acts ends
  | .closeInput :: acts, ends => writtenBy acts { ends with input := false }
  | .closeOutlet outlet :: acts, ends =>
    writtenBy acts { ends with outlet := Function.update ends.outlet outlet false }

theorem runs_ofActs {acts : List Act} {ended : ExitStatus} {ends : Ends} {input : List UInt8}
    {written : Outlet → List UInt8} {status : ExitStatus}
    (h : (ofActs ended acts).Runs ends input written status) :
    written = writtenBy acts ends ∧ status = ended := by
  induction acts generalizing ends input written with
  | nil => exact h
  | cons act acts ih =>
    cases act with
    | read limit =>
      simp only [ofActs, Runs] at h
      split_ifs at h
      · rcases h with ⟨bytes, rest, -, -, -, hnext⟩ | ⟨-, hnext⟩
        · exact ih hnext
        · exact ih hnext
      · exact ih h
    | write outlet bytes =>
      simp only [ofActs, Runs] at h
      rw [writtenBy]
      split_ifs at h ⊢
      · obtain ⟨later, hnext, rfl⟩ := h
        exact ⟨congrArg (prepend outlet bytes) (ih hnext).1, (ih hnext).2⟩
      · exact ih h
    | closeInput => exact ih h
    | closeOutlet outlet => exact ih h

/-- Programs that never look at what they read do not depend on timing. -/
theorem timingIndependent_ofActs (status : ExitStatus) (acts : List Act) (input : List UInt8) :
    (ofActs status acts).TimingIndependent input := by
  intro written ended written' ended' h h'
  exact ⟨(runs_ofActs h).1.trans (runs_ofActs h').1.symm,
    (runs_ofActs h).2.trans (runs_ofActs h').2.symm⟩

theorem runs_readAll {limit : ℕ+} {next : List UInt8 → Script} {fuel : ℕ} {seen input : List UInt8}
    {ends : Ends} {written : Outlet → List UInt8} {status : ExitStatus} (hends : ends.input = true)
    (hfuel : input.length < fuel)
    (h : (readAll limit next fuel seen).Runs ends input written status) :
    (next (seen ++ input)).Runs ends [] written status := by
  induction fuel generalizing seen input with
  | zero => exact absurd hfuel (Nat.not_lt_zero _)
  | succ fuel ih =>
    rw [readAll, Runs, if_pos hends] at h
    rcases h with ⟨bytes, rest, rfl, hbytes, -, hnext⟩ | ⟨rfl, hnext⟩
    · have hpos := List.length_pos_iff.2 hbytes
      rw [List.length_append] at hfuel
      rw [← List.append_assoc]
      exact ih (by omega) hnext
    · rw [List.append_nil]
      exact hnext

/-- Programs that first read their input to the end do not depend on timing, if what they do then
does not. -/
theorem timingIndependent_readAll {limit : ℕ+} {next : List UInt8 → Script} {fuel : ℕ}
    {input : List UInt8} (hfuel : input.length < fuel) (h : (next input).TimingIndependent []) :
    (readAll limit next fuel []).TimingIndependent input := by
  intro written status written' status' hruns hruns'
  exact h written status written' status' (runs_readAll rfl hfuel hruns)
    (runs_readAll rfl hfuel hruns')

end Script

namespace Pipes

/-! ### The pipe to the program -/

namespace Inflow

/-- The bytes that the program has yet to read. -/
def pending (q : Inflow) : List UInt8 := q.buffered ++ q.writer.unsent

/-- No byte of the input gets lost: it is read, in the pipe, or unsent. -/
structure Sound (input : List UInt8) (q : Inflow) : Prop where
  sent : q.read ++ q.pending = input
  broken : ∀ unsent, q.writer = .broken unsent → q.isOpen = false
  seen : q.sawEnd = true → q.read = input

variable {capacity limit : ℕ+} {input : List UInt8} {q r : Inflow}

theorem Feeds.isOpen_eq (h : q.Feeds capacity r) : r.isOpen = q.isOpen := by
  cases h <;> rfl

theorem Feeds.result?_eq_none (h : q.Feeds capacity r) : q.writer.result? = none := by
  cases h with
  | write hwriter hbytes hopen hroom => rw [hwriter]; rfl
  | finish hwriter => rw [hwriter]; rfl
  | breakOff hwriter hunsent hclosed => rw [hwriter]; rfl

/-- The writer moves bytes, but does not change what the program has yet to read. -/
theorem Feeds.pending_eq (h : q.Feeds capacity r) : r.pending = q.pending := by
  cases h with
  | write hwriter hbytes hopen hroom => simp [pending, Writer.unsent, hwriter]
  | finish hwriter => simp [pending, Writer.unsent, hwriter]
  | breakOff hwriter hunsent hclosed => simp [pending, Writer.unsent, hwriter]

theorem Sound.feeds (h : q.Sound input) (hstep : q.Feeds capacity r) : r.Sound input := by
  have hsent : q.read ++ r.pending = input := by rw [hstep.pending_eq]; exact h.sent
  cases hstep with
  | write hwriter hbytes hopen hroom => exact ⟨hsent, nofun, h.seen⟩
  | finish hwriter => exact ⟨hsent, nofun, h.seen⟩
  | breakOff hwriter hunsent hclosed => exact ⟨hsent, fun _ _ => hclosed, h.seen⟩

/-- At the end of the input, nothing is left to read. -/
theorem Sound.pending_eq_nil (h : q.Sound input) (hopen : q.isOpen = true)
    (hbuffered : q.buffered = []) {result : Except IoError Unit}
    (hresult : q.writer.result? = some result) : q.pending = [] := by
  cases hwriter : q.writer with
  | writing unsent => simp [Writer.result?, hwriter] at hresult
  | finished => simp [pending, Writer.unsent, hbuffered, hwriter]
  | broken unsent =>
    rw [h.broken unsent hwriter] at hopen
    cases hopen

theorem Sound.reads (h : q.Sound input) {received : Received} (hstep : q.Reads limit received r) :
    r.Sound input := by
  cases hstep with
  | @data bytes rest hopen hbuffered hbytes hlimit =>
    refine ⟨?_, h.broken, fun hend => ?_⟩
    · simpa [pending, hbuffered] using h.sent
    · -- the end of the input is behind all bytes, so there are none to be read
      have hnil : q.pending = [] := by simpa using h.sent.trans (h.seen hend).symm
      rw [pending, hbuffered] at hnil
      simp [hbytes] at hnil
  | ended hopen hbuffered hresult =>
    have hsent := h.sent
    rw [h.pending_eq_nil hopen hbuffered hresult, List.append_nil] at hsent
    exact ⟨h.sent, h.broken, fun _ => hsent⟩
  | closed hclosed => exact h

theorem Sound.close (h : q.Sound input) : q.close.Sound input :=
  ⟨h.sent, fun _ _ => rfl, h.seen⟩

/-- What the program does after a read that it may do on its own, too. -/
theorem Sound.runs_read (h : q.Sound input) {received : Received} (hreads : q.Reads limit received r)
    {next : Received → Script} {outlets : Outlet → Bool} {written : Outlet → List UInt8}
    {status : ExitStatus} (hruns : (next received).Runs ⟨r.isOpen, outlets⟩ r.pending written status) :
    (Script.read limit next).Runs ⟨q.isOpen, outlets⟩ q.pending written status := by
  rw [Script.Runs]
  cases hreads with
  | @data bytes rest hopen hbuffered hbytes hlimit =>
    rw [if_pos hopen]
    refine .inl ⟨bytes, rest ++ q.writer.unsent, ?_, hbytes, hlimit, hruns⟩
    rw [pending, hbuffered, List.append_assoc]
  | ended hopen hbuffered hresult =>
    rw [if_pos hopen]
    exact .inr ⟨h.pending_eq_nil hopen hbuffered hresult, hruns⟩
  | closed hclosed =>
    rw [if_neg (by simp [hclosed])]
    exact hruns

/-- A read with an open end waits for the writer only. -/
theorem Sound.exists_reads_or_feeds (h : q.Sound input) (hopen : q.isOpen = true) (capacity limit : ℕ+) :
    (∃ received r, q.Reads limit received r) ∨ ∃ r, q.Feeds capacity r := by
  cases hbuffered : q.buffered with
  | cons b rest => exact .inl ⟨_, _, .data hopen (hbuffered.trans rfl) (List.cons_ne_nil b []) limit.2⟩
  | nil =>
    cases hwriter : q.writer with
    | finished => exact .inl ⟨_, _, .ended hopen hbuffered (by rw [hwriter]; rfl)⟩
    | broken unsent =>
      rw [h.broken unsent hwriter] at hopen
      cases hopen
    | writing unsent =>
      cases unsent with
      | nil => exact .inr ⟨_, .finish hwriter⟩
      | cons b rest =>
        refine .inr ⟨_, .write (hwriter.trans rfl) (List.cons_ne_nil b []) hopen ?_⟩
        rw [hbuffered]
        exact capacity.2

/-- The writer ends if nobody reads. -/
theorem exists_feeds (hclosed : q.isOpen = false) {unsent : List UInt8}
    (hwriter : q.writer = .writing unsent) (capacity : ℕ+) : ∃ r, q.Feeds capacity r := by
  cases unsent with
  | nil => exact ⟨_, .finish hwriter⟩
  | cons b rest => exact ⟨_, .breakOff hwriter (List.cons_ne_nil b rest) hclosed⟩

end Inflow

/-! ### The pipes from the program -/

namespace Outflow

/-- No byte of an output gets lost: it is captured or in the pipe, and captured at the end. -/
structure Sound (q : Outflow) : Prop where
  kept : q.captured ++ q.buffered = q.written
  finished : q.ended = true → q.buffered = [] ∧ q.isOpen = false

variable {capacity : ℕ+} {q r : Outflow}

theorem Sound.drains (h : q.Sound) (hstep : q.Drains r) : r.Sound := by
  cases hstep with
  | data hended hbuffered hbytes =>
    refine ⟨?_, fun hend => ?_⟩
    · simpa [hbuffered] using h.kept
    · rw [hended] at hend
      cases hend
  | finish hended hbuffered hclosed => exact ⟨h.kept, fun _ => ⟨hbuffered, hclosed⟩⟩

theorem Drains.isOpen_eq (h : q.Drains r) : r.isOpen = q.isOpen := by
  cases h <;> rfl

theorem Drains.written_eq (h : q.Drains r) : r.written = q.written := by
  cases h <;> rfl

theorem Sound.accepts (h : q.Sound) {bytes : List UInt8} (hstep : q.Accepts capacity bytes r) :
    r.Sound := by
  cases hstep with
  | write hopen hbytes hroom =>
    refine ⟨?_, fun hend => ?_⟩
    · simp [← h.kept]
    · rw [(h.finished hend).2] at hopen
      cases hopen

theorem Accepts.isOpen_eq {bytes : List UInt8} (h : q.Accepts capacity bytes r) :
    q.isOpen = true ∧ r.isOpen = true := by
  cases h with
  | write hopen hbytes hroom => exact ⟨hopen, hopen⟩

theorem Accepts.ne_nil {bytes : List UInt8} (h : q.Accepts capacity bytes r) : bytes ≠ [] := by
  cases h with
  | write hopen hbytes hroom => exact hbytes

theorem Accepts.ended_eq {bytes : List UInt8} (h : q.Accepts capacity bytes r) :
    r.ended = q.ended := by
  cases h
  rfl

theorem Accepts.written_eq {bytes : List UInt8} (h : q.Accepts capacity bytes r) :
    r.written = q.written ++ bytes := by
  cases h
  rfl

theorem Sound.close (h : q.Sound) : q.close.Sound :=
  ⟨h.kept, fun hended => ⟨(h.finished hended).1, rfl⟩⟩

/-- At the end, everything written is captured. -/
theorem Sound.captured_eq (h : q.Sound) (hended : q.ended = true) : q.captured = q.written := by
  rw [← h.kept, (h.finished hended).1, List.append_nil]

/-- Bytes in the pipe can be read. -/
theorem Sound.exists_drains (h : q.Sound) (hbuffered : q.buffered ≠ []) : ∃ r, q.Drains r := by
  refine ⟨_, .data ?_ (List.append_nil q.buffered).symm hbuffered⟩
  rw [Bool.eq_false_iff]
  exact fun hended => hbuffered (h.finished hended).1

/-- An empty pipe has room. -/
theorem exists_accepts (hopen : q.isOpen = true) (hbuffered : q.buffered = []) (b : UInt8)
    (capacity : ℕ+) : ∃ r, q.Accepts capacity [b] r :=
  ⟨_, .write hopen (List.cons_ne_nil b []) (by rw [hbuffered]; exact capacity.2)⟩

end Outflow

/-! ### States -/

namespace State

/-- Whatever the program may yet do on its own with the input that is left, it may have done in one
go from the start. -/
def Explained (script : Script) (input : List UInt8) (s : State) : Prop :=
  match s.child with
  | .running rest => ∀ later status,
    rest.Runs ⟨s.inflow.isOpen, Outflow.isOpen ∘ s.outflow⟩ s.inflow.pending later status →
    script.Runs .all input (fun o => (Outflow.written ∘ s.outflow) o ++ later o) status
  | .exited status => script.Runs .all input (Outflow.written ∘ s.outflow) status

/-- What holds in every state of a run: no byte is lost, a program that has exited holds no end of a
pipe, and the parent goes on from phase to phase only when it may. -/
structure Sound (input : List UInt8) (s : State) : Prop where
  inflow : s.inflow.Sound input
  outflow : ∀ outlet, (s.outflow outlet).Sound
  exited : ∀ status, s.child = .exited status →
    s.inflow.isOpen = false ∧ ∀ outlet, (s.outflow outlet).isOpen = false
  drained : s.parent = .draining ∨ ∀ outlet, (s.outflow outlet).ended = true
  reaped : ∀ status, s.parent = .joining status ∨ s.parent = .returned status →
    s.child = .exited status
  joined : ∀ status, s.parent = .returned status → ∃ result, s.inflow.writer.result? = some result

theorem sound_start (script : Script) (input : List UInt8) : (start script input).Sound input where
  inflow := ⟨rfl, nofun, nofun⟩
  outflow _ := ⟨rfl, nofun⟩
  exited := nofun
  drained := .inl rfl
  reaped := by rintro status (h | h) <;> cases h
  joined := nofun

theorem explained_start (script : Script) (input : List UInt8) :
    (start script input).Explained script input := fun _ _ h => h

section

variable {capacities : Capacities} {script : Script} {input : List UInt8} {s t : State}

theorem Sound.update_outflow (h : s.Sound input) {outlet : Outlet} {q : Outflow} (hq : q.Sound) :
    ∀ o, (Function.update s.outflow outlet q o).Sound :=
  (Function.forall_update_iff s.outflow fun _ q => q.Sound).2 ⟨hq, fun o _ => h.outflow o⟩

theorem ended_update {outlet : Outlet} {q : Outflow} (hq : q.ended = (s.outflow outlet).ended) :
    ∀ o, (Function.update s.outflow outlet q o).ended = (s.outflow o).ended :=
  (Function.forall_update_iff s.outflow fun o q => q.ended = (s.outflow o).ended).2
    ⟨hq, fun _ _ => rfl⟩

/-! #### Steps of the parent -/

theorem Sound.parentStep (h : s.Sound input) (hstep : ParentStep capacities s t) :
    t.Sound input := by
  cases hstep with
  | feed hfeeds =>
    exact
      { h with
        inflow := h.inflow.feeds hfeeds
        exited := fun status hchild => ⟨hfeeds.isOpen_eq.trans (h.exited status hchild).1,
          (h.exited status hchild).2⟩
        joined := fun status hparent => by
          -- a thread that has ended takes no step
          obtain ⟨result, hresult⟩ := h.joined status hparent
          rw [hfeeds.result?_eq_none] at hresult
          cases hresult }
  | drain outlet hparent hdrains =>
    exact
      { h with
        outflow := h.update_outflow ((h.outflow outlet).drains hdrains)
        exited := fun status hchild =>
          ⟨(h.exited status hchild).1,
            (Function.forall_update_iff s.outflow fun _ q => q.isOpen = false).2
              ⟨hdrains.isOpen_eq.trans ((h.exited status hchild).2 outlet),
                fun other _ => (h.exited status hchild).2 other⟩⟩
        drained := .inl hparent }
  | drained hparent hended =>
    exact
      { h with
        drained := .inr hended
        reaped := by rintro status (h | h) <;> cases h
        joined := nofun }
  | @reap status hparent hchild =>
    exact
      { h with
        drained := h.drained.imp_left fun h => by rw [hparent] at h; cases h
        reaped := by
          rintro ended (h | h)
          · cases h
            exact hchild
          · cases h
        joined := nofun }
  | @join status result hparent hresult =>
    exact
      { h with
        drained := h.drained.imp_left fun h => by rw [hparent] at h; cases h
        reaped := by
          rintro ended (h' | h')
          · cases h'
          · cases h'
            exact h.reaped status (.inl hparent)
        joined := fun _ _ => ⟨result, hresult⟩ }

theorem Explained.congr {s t : State} (hchild : t.child = s.child)
    (hisOpen : t.inflow.isOpen = s.inflow.isOpen) (hpending : t.inflow.pending = s.inflow.pending)
    (houtlets : Outflow.isOpen ∘ t.outflow = Outflow.isOpen ∘ s.outflow)
    (hwritten : Outflow.written ∘ t.outflow = Outflow.written ∘ s.outflow)
    (h : s.Explained script input) : t.Explained script input := by
  rw [Explained, hchild, hisOpen, hpending, houtlets, hwritten]
  exact h

/-- The parent does not change what the program may yet do. -/
theorem Explained.parentStep (h : s.Explained script input) (hstep : ParentStep capacities s t) :
    t.Explained script input := by
  cases hstep with
  | feed hfeeds => exact Explained.congr (s := s) rfl hfeeds.isOpen_eq hfeeds.pending_eq rfl rfl h
  | drain outlet hparent hdrains =>
    refine Explained.congr (s := s) rfl rfl rfl ?_ ?_ h
    · rw [Function.comp_update, hdrains.isOpen_eq]
      exact Function.update_eq_self outlet (Outflow.isOpen ∘ s.outflow)
    · rw [Function.comp_update, hdrains.written_eq]
      exact Function.update_eq_self outlet (Outflow.written ∘ s.outflow)
  | drained hparent hended => exact h
  | reap hparent hchild => exact h
  | join hparent hresult => exact h

/-! #### Steps of the program -/

/-- A step of the program on its ends. -/
theorem Sound.child_update (h : s.Sound input) {rest : Script} (hchild : s.child = .running rest)
    {child : Child} {q : Inflow} {outflow : Outlet → Outflow} (hq : q.Sound input)
    (houtflow : ∀ outlet, (outflow outlet).Sound)
    (hended : ∀ outlet, (outflow outlet).ended = (s.outflow outlet).ended)
    (hexited : ∀ status, child = .exited status →
      q.isOpen = false ∧ ∀ outlet, (outflow outlet).isOpen = false) :
    ({ s with child, inflow := q, outflow } : State).Sound input where
  inflow := hq
  outflow := houtflow
  exited := hexited
  drained := h.drained.imp_right fun hdrained outlet => (hended outlet).trans (hdrained outlet)
  reaped status hparent := by
    rw [h.reaped status hparent] at hchild
    cases hchild
  joined status hparent := by
    rw [h.reaped status (.inr hparent)] at hchild
    cases hchild

theorem Sound.childStep (h : s.Sound input) (hstep : ChildStep capacities s t) :
    t.Sound input := by
  cases hstep with
  | read hchild hreads =>
    exact h.child_update hchild (h.inflow.reads hreads) h.outflow (fun _ => rfl) nofun
  | @write outlet bytes rest next q hchild haccepts =>
    exact h.child_update hchild h.inflow (h.update_outflow ((h.outflow outlet).accepts haccepts))
      (ended_update haccepts.ended_eq) nofun
  | written hchild => exact h.child_update hchild h.inflow h.outflow (fun _ => rfl) nofun
  | refused hchild hclosed =>
    exact h.child_update hchild h.inflow h.outflow (fun _ => rfl) nofun
  | closeInput hchild =>
    exact h.child_update hchild h.inflow.close h.outflow (fun _ => rfl) nofun
  | @closeOutlet outlet next hchild =>
    exact h.child_update hchild h.inflow (h.update_outflow (h.outflow outlet).close)
      (ended_update rfl) nofun
  | exit hchild =>
    exact h.child_update hchild h.inflow.close (fun outlet => (h.outflow outlet).close)
      (fun _ => rfl) fun _ _ => ⟨rfl, fun _ => rfl⟩

theorem Explained.of_running (h : s.Explained script input) {rest : Script}
    (hchild : s.child = .running rest) {later : Outlet → List UInt8} {status : ExitStatus}
    (hruns : rest.Runs ⟨s.inflow.isOpen, Outflow.isOpen ∘ s.outflow⟩ s.inflow.pending later status) :
    script.Runs .all input (fun o => (Outflow.written ∘ s.outflow) o ++ later o) status := by
  rw [Explained, hchild] at h
  exact h later status hruns

/-- What the program may do after a step, it may do before with that step in front. -/
theorem Explained.childStep (hsound : s.Sound input) (h : s.Explained script input)
    (hstep : ChildStep capacities s t) : t.Explained script input := by
  cases hstep with
  | read hchild hreads =>
    intro later status hruns
    exact h.of_running hchild (hsound.inflow.runs_read hreads hruns)
  | @write outlet bytes rest next q hchild haccepts =>
    intro later status hruns
    obtain ⟨hopen, hopen'⟩ := haccepts.isOpen_eq
    have houtlets : Function.update (Outflow.isOpen ∘ s.outflow) outlet q.isOpen =
        Outflow.isOpen ∘ s.outflow := by
      rw [hopen', ← hopen]
      exact Function.update_eq_self outlet (Outflow.isOpen ∘ s.outflow)
    dsimp only at hruns ⊢
    rw [Function.comp_update, houtlets] at hruns
    rw [Function.comp_update, haccepts.written_eq]
    have hrun := h.of_running hchild (Script.runs_write_append hopen hruns)
    rw [Script.append_prepend] at hrun
    exact hrun
  | written hchild =>
    intro later status hruns
    exact h.of_running hchild (Script.runs_write_nil hruns)
  | refused hchild hclosed =>
    intro later status hruns
    refine h.of_running hchild ?_
    simp only [Script.Runs, Function.comp_apply, hclosed]
    exact hruns
  | closeInput hchild =>
    intro later status hruns
    exact h.of_running hchild hruns
  | @closeOutlet outlet next hchild =>
    intro later status hruns
    have hwritten : Function.update (Outflow.written ∘ s.outflow) outlet
        (s.outflow outlet).close.written = Outflow.written ∘ s.outflow :=
      Function.update_eq_self outlet (Outflow.written ∘ s.outflow)
    dsimp only at hruns ⊢
    rw [Function.comp_update] at hruns
    rw [Function.comp_update, hwritten]
    exact h.of_running hchild hruns
  | @exit status hchild =>
    have hexit : (Script.exit status).Runs ⟨s.inflow.isOpen, Outflow.isOpen ∘ s.outflow⟩
        s.inflow.pending (fun _ => []) status := ⟨rfl, rfl⟩
    have hrun := h.of_running hchild hexit
    simp only [List.append_nil] at hrun
    exact hrun

end

end State

end Pipes

end ConfigAudit
