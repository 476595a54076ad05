import ConfigAudit.Proofs.PathNames
import ConfigAudit.Proofs.Walks

/-!
# What loading stores

Stored texts stay where they are, whatever is loaded after them and however it ends.

* `into_directory_cases`: the three ways in which loading a directory ends;
* `obstructed_iff`: when a walk breaks off;
* `complete_perform_ok_iff`, `complete_perform_error_iff`: all texts or a failure;
* `loading_appends`: what every step of loading adds to stored texts.
-/

namespace ConfigAudit

namespace LoadError

/-- Whether a failure breaks a walk off. -/
def BreaksOff : LoadError → Prop
  | .noMatchingFiles _ _ => False
  | .read _ _ | .walk _ _ => True

@[simp] theorem not_breaksOff_noMatchingFiles (path suffix : String) :
    ¬(noMatchingFiles path suffix).BreaksOff := id

theorem BreaksOff.ne_noMatchingFiles {e : LoadError} (h : e.BreaksOff) (path suffix : String) :
    e ≠ .noMatchingFiles path suffix := by
  rintro rfl
  exact h

end LoadError

/-! ### Obstructed walks -/

theorem FileNode.read_eq_error_iff {path : String} {node : FileNode} {e : LoadError} :
    node.read path = .error e ↔
      ∃ cause, node.textAt path = .error cause ∧ e = .read path cause := by
  unfold read
  cases node.textAt path <;> simp [eq_comm]

namespace ListedEntry

/-- Whether a listing fails at an entry: it is a directory that is entered but cannot be listed, or
the listing that it stands in breaks off. -/
def Unlistable (options : SourceOptions) (start : String) (e : ListedEntry) : Prop :=
  match e.node with
  | .directory _ => e.name ≠ options.cacheDir ∧ Path.flaw? (e.path start) ≠ none
  | .closedDirectory _ => e.name ≠ options.cacheDir
  | .unlisted _ => True
  | _ => False

/-- Whether an entry is or leads to a matching file that cannot be read. -/
def Unreadable (fs : FileSystem) (options : SourceOptions) (origin : Origin) (e : ListedEntry) :
    Prop :=
  ∃ file cause, e.matching? fs options origin = some file ∧
    file.textAt (e.path origin.path) = .error cause

theorem isSome_listingFailure? {options : SourceOptions} {start : String} {e : ListedEntry} :
    (e.listingFailure? options start).isSome ↔ e.Unlistable options start := by
  obtain ⟨trail, name, node⟩ := e
  cases node with
  | directory listed =>
    by_cases h : name = options.cacheDir <;>
      simp [listingFailure?, Unlistable, h, Option.isSome_iff_ne_none]
  | closedDirectory cause =>
    by_cases h : name = options.cacheDir <;> simp [listingFailure?, Unlistable, h]
  | _ => simp [listingFailure?, Unlistable]

/-- The attempt at an entry fails if a listing fails at it or a matching file cannot be read. -/
theorem attempt?_eq_error_iff {fs : FileSystem} {options : SourceOptions} {origin : Origin}
    {e : ListedEntry} :
    (∃ failure, e.attempt? fs options origin = some (.error failure)) ↔
      e.Reached options ∧ (e.Unlistable options origin.path ∨ e.Unreadable fs options origin) := by
  by_cases hreached : e.Reached options
  · cases hlisting : e.listingFailure? options origin.path with
    | some failure =>
      have hunlistable : e.Unlistable options origin.path := by
        rw [← isSome_listingFailure?, hlisting]
        rfl
      rw [attempt?_of_listingFailure fs origin hreached hlisting]
      exact iff_of_true ⟨failure, rfl⟩ ⟨hreached, .inl hunlistable⟩
    | none =>
      have hlistable : ¬e.Unlistable options origin.path := by
        rw [← isSome_listingFailure?, hlisting]
        exact Bool.false_ne_true
      rw [attempt?_of_listable fs origin hreached hlisting]
      simp only [hreached, hlistable, true_and, false_or, Option.map_eq_some_iff, Unreadable]
      constructor
      · rintro ⟨failure, file, hfile, hread⟩
        obtain ⟨cause, hcause, -⟩ := FileNode.read_eq_error_iff.1 hread
        exact ⟨file, cause, hfile, hcause⟩
      · rintro ⟨file, cause, hfile, hcause⟩
        exact ⟨_, file, hfile, FileNode.read_eq_error_iff.2 ⟨cause, hcause, rfl⟩⟩
  · simp [attempt?, hreached]

theorem breaksOff_of_listingFailure? {options : SourceOptions} {start : String} {e : ListedEntry}
    {failure : LoadError} (h : e.listingFailure? options start = some failure) :
    failure.BreaksOff := by
  unfold listingFailure? at h
  split at h
  · split_ifs at h
    obtain ⟨cause, -, rfl⟩ := Option.map_eq_some_iff.1 h
    exact trivial
  · split_ifs at h
    cases h
    exact trivial
  · cases h
    exact trivial
  · cases h

theorem breaksOff_of_attempt? {fs : FileSystem} {options : SourceOptions} {origin : Origin}
    {e : ListedEntry} {failure : LoadError}
    (h : e.attempt? fs options origin = some (.error failure)) : failure.BreaksOff := by
  unfold attempt? at h
  split_ifs at h
  cases hlisting : e.listingFailure? options origin.path with
  | some found =>
    rw [hlisting] at h
    cases h
    exact breaksOff_of_listingFailure? hlisting
  | none =>
    rw [hlisting] at h
    obtain ⟨file, -, hread⟩ := Option.map_eq_some_iff.1 h
    obtain ⟨cause, -, rfl⟩ := FileNode.read_eq_error_iff.1 hread
    exact trivial

end ListedEntry

namespace FileSystem

/-- Whether a walk from a path is obstructed: the path leads to no directory that can be listed, or
some entry outside of cache directories is a directory that cannot be listed or a matching file that
cannot be read. -/
def Obstructed (fs : FileSystem) (options : SourceOptions) (path : String) : Prop :=
  match fs.directoryAt path with
  | .ok (origin, listed) =>
    ∃ e ∈ FileNode.listEntries [] listed,
      e.Reached options ∧ (e.Unlistable options origin.path ∨ e.Unreadable fs options origin)
  | .error _ => True

theorem obstructed_iff {fs : FileSystem} {options : SourceOptions} {path : String} :
    fs.Obstructed options path ↔ ∃ e, .error e ∈ fs.attempts options path := by
  unfold Obstructed attempts
  cases fs.directoryAt path with
  | error cause => simp
  | ok found =>
    simp only [List.mem_filterMap]
    constructor
    · rintro ⟨e, he, hfails⟩
      obtain ⟨failure, hfailure⟩ := ListedEntry.attempt?_eq_error_iff.2 hfails
      exact ⟨failure, e, he, hfailure⟩
    · rintro ⟨failure, e, he, hfailure⟩
      exact ⟨e, he, ListedEntry.attempt?_eq_error_iff.1 ⟨failure, hfailure⟩⟩

/-- Every failure on a walk breaks it off. -/
theorem breaksOff_of_mem_attempts {fs : FileSystem} {options : SourceOptions} {path : String}
    {e : LoadError} (h : .error e ∈ fs.attempts options path) : e.BreaksOff := by
  unfold attempts at h
  cases hfound : fs.directoryAt path with
  | error cause =>
    rw [hfound, List.mem_singleton] at h
    cases h
    exact trivial
  | ok found =>
    rw [hfound] at h
    obtain ⟨entry, -, hattempt⟩ := List.mem_filterMap.1 h
    exact ListedEntry.breaksOff_of_attempt? hattempt

end FileSystem

/-! ### Directories and files -/

namespace Loading

variable (fs : FileSystem) (options : SourceOptions)

theorem into_directory (path : String) (sources : Sources) :
    (directory fs options path).into sources =
      match (walk fs options path).into sources with
      | (.ok (), sources') =>
        (if sources'.length = sources.length then .error (.noMatchingFiles path options.suffix)
          else .ok (), sources')
      | (.error e, sources') => (.error e, sources') := by
  rw [directory, into_bind, into_get]
  simp only [into_bind]
  rcases (walk fs options path).into sources with ⟨_ | _, sources'⟩
  · rfl
  · simp only [into_get]
    split_ifs <;> rfl

/-- **Loading a directory ends in one of three ways**: all attempts succeed and there is one, there
is no attempt, or an attempt is the first to fail. -/
theorem into_directory_cases (path : String) (sources : Sources) :
    (∃ added, added ≠ [] ∧ fs.attempts options path = added.map .ok ∧
      (directory fs options path).into sources = (.ok (), sources ++ added)) ∨
    (fs.attempts options path = [] ∧
      (directory fs options path).into sources =
        (.error (.noMatchingFiles path options.suffix), sources)) ∨
    ∃ added e rest, e.BreaksOff ∧ fs.attempts options path = added.map .ok ++ .error e :: rest ∧
      (directory fs options path).into sources = (.error e, sources ++ added) := by
  rw [into_directory, walk_eq_perform]
  rcases attempts_cases (fs.attempts options path) with ⟨added, h⟩ | ⟨added, e, rest, h⟩
  · rw [h, into_perform_ok]
    by_cases hadded : added = []
    · subst hadded
      exact .inr (.inl ⟨rfl, by simp⟩)
    · have hlength : (sources ++ added).length ≠ sources.length := by simpa using hadded
      exact .inl ⟨added, hadded, rfl, congrArg (·, sources ++ added) (if_neg hlength)⟩
  · have hbreaks : e.BreaksOff := FileSystem.breaksOff_of_mem_attempts (by rw [h]; simp)
    rw [h, into_perform_error]
    exact .inr (.inr ⟨added, e, rest, hbreaks, rfl, rfl⟩)

/-! ### All texts or a failure -/

theorem complete_perform_ok_iff {attempts : List (Except LoadError Source)} {sources : Sources} :
    (perform attempts).complete = .ok sources ↔ attempts = sources.map .ok := by
  constructor
  · intro h
    rcases attempts_cases attempts with ⟨added, rfl⟩ | ⟨added, e, rest, rfl⟩
    · rw [complete, into_perform_ok] at h
      cases h
      rfl
    · rw [complete, into_perform_error] at h
      cases h
  · rintro rfl
    rw [complete, into_perform_ok, List.nil_append]

theorem complete_perform_error_iff {attempts : List (Except LoadError Source)} {e : LoadError} :
    (perform attempts).complete = .error e ↔
      ∃ (before : Sources) (after : _), attempts = before.map .ok ++ .error e :: after := by
  constructor
  · intro h
    rcases attempts_cases attempts with ⟨added, rfl⟩ | ⟨added, found, rest, rfl⟩
    · rw [complete, into_perform_ok] at h
      cases h
    · rw [complete, into_perform_error] at h
      cases h
      exact ⟨added, rest, rfl⟩
  · rintro ⟨before, after, rfl⟩
    rw [complete, into_perform_error]

theorem complete_perform_fails_iff {attempts : List (Except LoadError Source)} :
    (∃ e, (perform attempts).complete = .error e) ↔ ∃ e, .error e ∈ attempts := by
  simp only [complete_perform_error_iff]
  rcases attempts_cases attempts with ⟨added, rfl⟩ | ⟨added, e, rest, rfl⟩
  · constructor
    · rintro ⟨e, before, after, h⟩
      exact ⟨e, by rw [h]; simp⟩
    · rintro ⟨e, he⟩
      simp at he
  · exact ⟨fun _ => ⟨e, by simp⟩, fun _ => ⟨e, added, rest, rfl⟩⟩

theorem complete_directory (path : String) :
    (directory fs options path).complete =
      if fs.attempts options path = [] then .error (.noMatchingFiles path options.suffix)
      else (perform (fs.attempts options path)).complete := by
  rcases into_directory_cases fs options path [] with
    ⟨added, hadded, hattempts, hinto⟩ | ⟨hattempts, hinto⟩ | ⟨added, e, rest, -, hattempts, hinto⟩
  · have hne : added.map Except.ok ≠ ([] : List (Except LoadError Source)) := by simpa using hadded
    rw [hattempts, if_neg hne, complete_perform_ok_iff.2 rfl, complete, hinto, List.nil_append]
  · rw [if_pos hattempts, complete, hinto]
  · have hne : added.map Except.ok ++ .error e :: rest ≠ [] := by simp
    rw [hattempts, if_neg hne, complete_perform_error_iff.2 ⟨added, rest, rfl⟩, complete, hinto]

end Loading

namespace FileSystem

/-- What loading the texts of a path attempts: everything on a walk if it leads to a directory, else
the file. -/
def attemptsAt (fs : FileSystem) (options : SourceOptions) (path : String) :
    List (Except LoadError Source) :=
  match fs.resolve path with
  | .ok place => if place.node.isDirectory then fs.attempts options path else [fs.attempt path]
  | .error cause => [.error (.read path cause)]

end FileSystem

namespace Sources

variable {fs : FileSystem} {options : SourceOptions}

theorem ofPath_eq (path : String) :
    ofPath fs options path =
      if fs.attemptsAt options path = [] then .error (.noMatchingFiles path options.suffix)
      else (Loading.perform (fs.attemptsAt options path)).complete := by
  unfold ofPath FileSystem.attemptsAt
  cases fs.resolve path with
  | error cause => rfl
  | ok place =>
    cases hdirectory : place.node.isDirectory with
    | true => simpa [hdirectory] using Loading.complete_directory fs options path
    | false => simp [hdirectory, Loading.file_eq_attempt, Loading.perform_singleton]

/-- The texts of a path are those of all attempts, and there are some. -/
theorem ofPath_eq_ok_iff {path : String} {sources : Sources} :
    ofPath fs options path = .ok sources ↔
      sources ≠ [] ∧ fs.attemptsAt options path = sources.map .ok := by
  rw [ofPath_eq]
  split_ifs with h
  · rw [h]
    simp [eq_comm]
  · rw [Loading.complete_perform_ok_iff]
    refine ⟨fun hattempts => ⟨?_, hattempts⟩, And.right⟩
    rintro rfl
    exact h hattempts

/-- Loading the texts of a path fails as the first attempt that fails, or because there is none. -/
theorem ofPath_eq_error_iff {path : String} {e : LoadError} :
    ofPath fs options path = .error e ↔
      (fs.attemptsAt options path = [] ∧ e = .noMatchingFiles path options.suffix) ∨
      ∃ (before : Sources) (after : _),
        fs.attemptsAt options path = before.map .ok ++ .error e :: after := by
  rw [ofPath_eq]
  split_ifs with h
  · rw [h]
    simp [eq_comm]
  · rw [Loading.complete_perform_error_iff]
    simp [h]

/-- Loading the texts of a path fails if any attempt fails, or if there is none. -/
theorem ofPath_fails_iff {path : String} :
    (∃ e, ofPath fs options path = .error e) ↔
      fs.attemptsAt options path = [] ∨ ∃ e, .error e ∈ fs.attemptsAt options path := by
  rw [ofPath_eq]
  split_ifs with h
  · simp [h]
  · rw [Loading.complete_perform_fails_iff, or_iff_right h]

/-- The texts of files are those of all files in order. -/
theorem ofFiles_eq_ok_iff {paths : List String} {sources : Sources} :
    ofFiles fs paths = .ok sources ↔ paths.map fs.attempt = sources.map .ok := by
  rw [ofFiles, Loading.files_eq_perform, Loading.complete_perform_ok_iff]

/-- Loading files fails as the first file that cannot be read. -/
theorem ofFiles_eq_error_iff {paths : List String} {e : LoadError} :
    ofFiles fs paths = .error e ↔
      ∃ before path after, paths = before ++ path :: after ∧
        (∀ readable ∈ before, ∃ source, fs.attempt readable = .ok source) ∧
        fs.attempt path = .error e := by
  rw [ofFiles, Loading.files_eq_perform, Loading.complete_perform_error_iff]
  constructor
  · rintro ⟨sources, rest, h⟩
    obtain ⟨before, tail, rfl, hbefore, htail⟩ := List.map_eq_append_iff.1 h
    obtain ⟨path, after, rfl, hpath, -⟩ := List.map_eq_cons_iff.1 htail
    refine ⟨before, path, after, rfl, fun readable hreadable => ?_, hpath⟩
    have hmem := List.mem_map_of_mem hreadable (f := fs.attempt)
    rw [hbefore] at hmem
    obtain ⟨source, -, hsource⟩ := List.mem_map.1 hmem
    exact ⟨source, hsource.symm⟩
  · rintro ⟨before, path, after, rfl, hbefore, hpath⟩
    rcases Loading.attempts_cases (before.map fs.attempt) with ⟨sources, h⟩ | ⟨_, found, _, h⟩
    · exact ⟨sources, after.map fs.attempt, by simp [h, hpath]⟩
    · have hmem : .error found ∈ before.map fs.attempt := by rw [h]; simp
      obtain ⟨readable, hreadable, hfound⟩ := List.mem_map.1 hmem
      obtain ⟨source, hsource⟩ := hbefore readable hreadable
      rw [hsource] at hfound
      cases hfound

/-- Loading files fails if any of them cannot be read. -/
theorem ofFiles_fails_iff {paths : List String} :
    (∃ e, ofFiles fs paths = .error e) ↔
      ∃ path ∈ paths, ∃ cause, fs.readText path = .error cause := by
  rw [ofFiles, Loading.files_eq_perform, Loading.complete_perform_fails_iff]
  simp only [List.mem_map, FileSystem.attempt_eq_error_iff]
  constructor
  · rintro ⟨e, path, hpath, cause, hcause, -⟩
    exact ⟨path, hpath, cause, hcause⟩
  · rintro ⟨path, hpath, cause, hcause⟩
    exact ⟨_, path, hpath, cause, hcause, rfl⟩

end Sources

/-! ### Steps of loading -/

/-- A step that adds texts to a store: a given text, the text of a file, or those of a directory. -/
inductive LoadStep
  | insert (path : Option String) (text : String)
  | file (path : String)
  | directory (options : SourceOptions) (path : String)

namespace LoadStep

/-- What a step does on a file system. -/
def loading (fs : FileSystem) : LoadStep → Loading Unit
  | .insert path text => .insert path text
  | .file path => .file fs path
  | .directory options path => .directory fs options path

theorem into_file (fs : FileSystem) (path : String) (sources : Sources) :
    ((LoadStep.file path).loading fs).into sources =
      match fs.attempt path with
      | .ok source => (.ok (), sources ++ [source])
      | .error e => (.error e, sources) := by
  rw [loading, Loading.file_eq_attempt]
  cases fs.attempt path <;> rfl

/-- How loading a directory ends, by what it attempts. -/
theorem into_directory_outcome (fs : FileSystem) (options : SourceOptions) (path : String)
    (stored : Sources) :
    ∃ result added,
      ((LoadStep.directory options path).loading fs).into stored = (result, stored ++ added) ∧
      (result = .ok () ↔ added ≠ [] ∧ fs.attempts options path = added.map .ok) ∧
      (result = .error (.noMatchingFiles path options.suffix) ↔ fs.attempts options path = []) ∧
      (∀ d s, result = .error (.noMatchingFiles d s) → added = []) ∧
      (∀ e, e.BreaksOff → (result = .error e ↔
        ∃ rest, fs.attempts options path = added.map .ok ++ .error e :: rest)) ∧
      ((∃ e, e.BreaksOff ∧ result = .error e) ↔ fs.Obstructed options path) := by
  rcases Loading.into_directory_cases fs options path stored with
    ⟨added, hadded, hattempts, h⟩ | ⟨hattempts, h⟩ | ⟨added, e, rest, hbreaks, hattempts, h⟩
  · refine ⟨.ok (), added, h, ?_, ?_, nofun, ?_, ?_⟩
    · simp [hattempts, hadded]
    · simp [hattempts, hadded]
    · simp [hattempts]
    · simp [FileSystem.obstructed_iff, hattempts]
  · refine ⟨_, [], by rw [List.append_nil]; exact h, ?_, ?_, fun _ _ _ => rfl, ?_, ?_⟩
    · simp
    · simp [hattempts]
    · intro e hbreaks
      simp [hattempts, (hbreaks.ne_noMatchingFiles path options.suffix).symm]
    · simp [FileSystem.obstructed_iff, hattempts]
  · have hne := hbreaks.ne_noMatchingFiles
    refine ⟨.error e, added, h, ?_, ?_, ?_, ?_, ?_⟩
    · simp [hattempts]
    · simp [hattempts, hne]
    · simp [hne]
    · simp [hattempts]
    · simp [FileSystem.obstructed_iff, hattempts, hbreaks]

/-- One step keeps what is stored and adds texts behind it. -/
theorem prefix_into (fs : FileSystem) (step : LoadStep) (sources : Sources) :
    sources <+: ((step.loading fs).into sources).2 := by
  cases step with
  | insert path text => exact List.prefix_append sources [⟨path, text⟩]
  | file path =>
    rw [into_file]
    cases fs.attempt path with
    | ok source => exact List.prefix_append sources [source]
    | error e => exact List.prefix_refl sources
  | directory options path =>
    rcases Loading.into_directory_cases fs options path sources with
      ⟨added, -, -, h⟩ | ⟨-, h⟩ | ⟨added, e, rest, -, -, h⟩
    · rw [loading, h]
      exact List.prefix_append sources added
    · simp [loading, h]
    · rw [loading, h]
      exact List.prefix_append sources added

end LoadStep

/-- What is stored after steps, each of them on the file system as it is then, whether they succeed
or fail. -/
def Sources.after (start : Sources) (history : List (FileSystem × LoadStep)) : Sources :=
  history.foldl (fun sources (fs, step) => ((step.loading fs).into sources).2) start

/-- Any number of steps keep what is stored. -/
theorem Sources.prefix_after (start : Sources) (history : List (FileSystem × LoadStep)) :
    start <+: start.after history := by
  induction history generalizing start with
  | nil => exact List.prefix_refl start
  | cons first history ih =>
    rw [after, List.foldl_cons, ← after]
    exact (first.2.prefix_into first.1 start).trans (ih _)

/-- **Loading only appends.** Whatever is stored at some time of a history is at the front of what
is stored later on. On every file system, starting from any store,

* inserting a text appends it;
* loading a file appends its text, or fails and appends nothing;
* loading a directory appends the matching files, of which there is one, or fails: with nothing
  appended if there is no matching file, else, if and only if the walk is obstructed, with the
  matching files in front of the first failure appended.

The texts of a path or of a list of files are those of all matching or all listed files; if one of
them fails, so does the whole, as the first one that fails. -/
theorem loading_appends (stored : Sources) :
    (∀ before after : List (FileSystem × LoadStep),
      stored.after before <+: stored.after (before ++ after)) ∧
    ∀ fs : FileSystem,
      (∀ path text, ((LoadStep.insert path text).loading fs).into stored =
        (.ok (), stored ++ [⟨path, text⟩])) ∧
      (∀ path,
        (∃ text, fs.readText path = .ok text ∧
          ((LoadStep.file path).loading fs).into stored = (.ok (), stored ++ [⟨some path, text⟩])) ∨
        ∃ cause, fs.readText path = .error cause ∧
          ((LoadStep.file path).loading fs).into stored = (.error (.read path cause), stored)) ∧
      (∀ options path, ∃ result added,
        ((LoadStep.directory options path).loading fs).into stored = (result, stored ++ added) ∧
        (result = .ok () ↔ added ≠ [] ∧ fs.attempts options path = added.map .ok) ∧
        (result = .error (.noMatchingFiles path options.suffix) ↔
          fs.attempts options path = []) ∧
        (∀ d s, result = .error (.noMatchingFiles d s) → added = []) ∧
        (∀ e, e.BreaksOff → (result = .error e ↔
          ∃ rest, fs.attempts options path = added.map .ok ++ .error e :: rest)) ∧
        ((∃ e, e.BreaksOff ∧ result = .error e) ↔ fs.Obstructed options path)) ∧
      (∀ options path,
        (∀ sources, Sources.ofPath fs options path = .ok sources ↔
          sources ≠ [] ∧ fs.attemptsAt options path = sources.map .ok) ∧
        ∀ e, Sources.ofPath fs options path = .error e ↔
          (fs.attemptsAt options path = [] ∧ e = .noMatchingFiles path options.suffix) ∨
          ∃ (before : Sources) (after : _),
            fs.attemptsAt options path = before.map .ok ++ .error e :: after) ∧
      ∀ paths,
        (∀ sources, Sources.ofFiles fs paths = .ok sources ↔
          paths.map fs.attempt = sources.map .ok) ∧
        ∀ e, Sources.ofFiles fs paths = .error e ↔
          ∃ before path after, paths = before ++ path :: after ∧
            (∀ readable ∈ before, ∃ source, fs.attempt readable = .ok source) ∧
            fs.attempt path = .error e := by
  refine ⟨fun before after => ?_, fun fs => ⟨fun _ _ => rfl, fun path => ?_, fun options path => ?_,
    fun options path => ⟨fun _ => Sources.ofPath_eq_ok_iff, fun _ => Sources.ofPath_eq_error_iff⟩,
    fun paths => ⟨fun _ => Sources.ofFiles_eq_ok_iff, fun _ => Sources.ofFiles_eq_error_iff⟩⟩⟩
  · rw [Sources.after, Sources.after, List.foldl_append]
    exact Sources.prefix_after _ after
  · rw [LoadStep.into_file, FileSystem.attempt]
    cases fs.readText path with
    | ok text => exact .inl ⟨text, rfl, rfl⟩
    | error cause => exact .inr ⟨cause, rfl, rfl⟩
  · exact LoadStep.into_directory_outcome fs options path stored

/-- The entries of a directory with a file between two others that holds no text. -/
def brokenFiles : List (String × FileNode) :=
  [("a.tf", .file [97]), ("b.tf", .file [255]), ("c.tf", .file [99])]

/-- The directory, as the only one. -/
def brokenTree : FileSystem where
  root := .directory [("modules", .directory brokenFiles)]
  workDir := []

theorem attempts_brokenTree :
    brokenTree.attempts .standard "modules" =
      [.ok ⟨some "modules/a.tf", "a"⟩, .error (.read "modules/b.tf" .notText),
        .ok ⟨some "modules/c.tf", "c"⟩] := by
  have hnames : Path.names "modules" = ["modules"] :=
    Path.names_of_notMem (by decide) (by decide)
  have hstart : brokenTree.directoryAt "modules" =
      .ok (⟨"modules", ["modules"], FileSystem.maxLinks⟩, brokenFiles) := by
    simp +decide [FileSystem.directoryAt, FileSystem.resolve, FileSystem.resolveNames, Path.flaw?,
      brokenTree, FileNode.descend?, FileNode.named?, hnames]
  have hread : FileNode.read "modules/a.tf" (.file [97]) = .ok ⟨some "modules/a.tf", "a"⟩ ∧
      FileNode.read "modules/b.tf" (.file [255]) = .error (.read "modules/b.tf" .notText) ∧
      FileNode.read "modules/c.tf" (.file [99]) = .ok ⟨some "modules/c.tf", "c"⟩ := by
    with_unfolding_all exact ⟨rfl, rfl, rfl⟩
  simp +decide [FileSystem.attempts, hstart, brokenFiles, FileNode.listEntries, FileNode.listEntry,
    FileNode.isFile, ListedEntry.attempt?, ListedEntry.listingFailure?, ListedEntry.Reached,
    ListedEntry.matching?, ListedEntry.file?, ListedEntry.path, ListedEntry.parent, Path.join,
    SourceOptions.standard, hread]

/-- What stands in front of the broken file is added to what was stored. -/
theorem loading_appends_broken :
    (LoadError.read "modules/b.tf" .notText).BreaksOff ∧
      brokenTree.Obstructed .standard "modules" ∧
      ((LoadStep.directory .standard "modules").loading brokenTree).into [⟨none, "x"⟩] =
        (.error (.read "modules/b.tf" .notText), [⟨none, "x"⟩, ⟨some "modules/a.tf", "a"⟩]) := by
  have hobstructed : brokenTree.Obstructed .standard "modules" := by
    rw [FileSystem.obstructed_iff, attempts_brokenTree]
    exact ⟨.read "modules/b.tf" .notText, by simp⟩
  obtain ⟨-, hsteps⟩ := loading_appends [⟨none, "x"⟩]
  obtain ⟨-, -, hdirectory, -⟩ := hsteps brokenTree
  obtain ⟨result, added, hinto, -, -, -, hbreaks, hfails⟩ := hdirectory .standard "modules"
  obtain ⟨e, he, rfl⟩ := hfails.2 hobstructed
  obtain ⟨rest, hattempts⟩ := (hbreaks e he).1 rfl
  rw [attempts_brokenTree] at hattempts
  -- one text is added, as the second attempt fails
  obtain ⟨rfl, rfl⟩ : added = [⟨some "modules/a.tf", "a"⟩] ∧ e = .read "modules/b.tf" .notText := by
    rcases added with _ | ⟨first, _ | ⟨second, later⟩⟩
    · cases hattempts
    · cases hattempts
      exact ⟨rfl, rfl⟩
    · cases hattempts
  exact ⟨he, hobstructed, hinto⟩

end ConfigAudit
