import ConfigAudit.Sources.Loading
import Mathlib.Tactic.Common

/-!
# Walks through directories

Everything below a directory makes one list, depth first in listing order. A walk goes along this
list: it attempts to load the matching files outside of cache directories, and the first failure
ends it.

* `FileNode.listEntries`: everything below a directory;
* `ListedEntry.attempt?`: what a walk makes of an entry;
* `Loading.perform`: attempts up to the first that fails, with `into_perform_ok` and
  `into_perform_error` for what they store;
* `walk_eq_perform`: a walk performs the attempts along the list.
-/

namespace ConfigAudit

/-- An entry somewhere below a directory, the start; `trail` are the names of the directories on the
way to it, from the start on. -/
structure ListedEntry where
  trail : List String
  name : String
  node : FileNode

namespace FileNode

mutual

/-- An entry and everything below it, depth first in listing order. -/
def listEntry (trail : List String) (name : String) : FileNode → List ListedEntry
  | .directory listed =>
    ⟨trail, name, .directory listed⟩ :: listEntries (trail ++ [name]) listed
  | node => [⟨trail, name, node⟩]

/-- Entries and everything below them, depth first in listing order. -/
def listEntries (trail : List String) : List (String × FileNode) → List ListedEntry
  | [] => []
  | (name, node) :: rest => listEntry trail name node ++ listEntries trail rest

end

theorem listEntry_leaf (trail : List String) (name : String) {node : FileNode}
    (h : ∀ listed, node ≠ .directory listed) :
    listEntry trail name node = [⟨trail, name, node⟩] := by
  cases node with
  | directory listed => exact absurd rfl (h listed)
  | _ => rw [listEntry]; exact h

/-- The text of a node as a source with a path. -/
def read (path : String) (node : FileNode) : Except LoadError Source :=
  match node.textAt path with
  | .ok text => .ok ⟨some path, text⟩
  | .error cause => .error (.read path cause)

mutual

theorem trail_subset_of_mem_listEntry (trail : List String) (name : String) :
    ∀ node : FileNode, ∀ e ∈ listEntry trail name node, trail ⊆ e.trail
  | .directory listed, e, h => by
    rw [listEntry, List.mem_cons] at h
    rcases h with rfl | h
    · exact List.Subset.refl _
    · have hsub := trail_subset_of_mem_listEntries (trail ++ [name]) listed e h
      exact List.Subset.trans (List.subset_append_left trail [name]) hsub
  | .file _, e, h | .link _, e, h | .other _, e, h | .closedDirectory _, e, h | .unlisted _, e, h
  | .closedFile _, e, h => by
    rw [listEntry_leaf trail name (by nofun), List.mem_singleton] at h
    rw [h]
    exact List.Subset.refl _

/-- Whatever is listed below a trail has this trail on its way. -/
theorem trail_subset_of_mem_listEntries (trail : List String) :
    ∀ listed : List (String × FileNode), ∀ e ∈ listEntries trail listed, trail ⊆ e.trail
  | [], e, h => by simp [listEntries] at h
  | (name, node) :: rest, e, h => by
    rw [listEntries, List.mem_append] at h
    rcases h with h | h
    · exact trail_subset_of_mem_listEntry trail name node e h
    · exact trail_subset_of_mem_listEntries trail rest e h

end

end FileNode

namespace ListedEntry

/-- The path of the directory that lists an entry, below the path of the start. -/
def parent (start : String) (e : ListedEntry) : String := e.trail.foldl Path.join start

/-- The path of an entry, below the path of the start. -/
def path (start : String) (e : ListedEntry) : String := Path.join (e.parent start) e.name

/-- Whether an entry is outside of all cache directories. -/
def Reached (options : SourceOptions) (e : ListedEntry) : Prop := options.cacheDir ∉ e.trail

instance (options : SourceOptions) (e : ListedEntry) : Decidable (e.Reached options) :=
  inferInstanceAs (Decidable (_ ∉ _))

/-- The failure of a listing: of the listing of the entry itself, unless it is a cache directory, or
of the listing that breaks off at the entry. -/
def listingFailure? (options : SourceOptions) (start : String) (e : ListedEntry) :
    Option LoadError :=
  match e.node with
  | .directory _ =>
    if e.name = options.cacheDir then none
    else (Path.flaw? (e.path start)).map (.walk (e.path start))
  | .closedDirectory cause =>
    if e.name = options.cacheDir then none
    else some (.walk (e.path start) ((Path.flaw? (e.path start)).getD cause))
  | .unlisted cause => some (.walk (e.parent start) cause)
  | _ => none

/-- The file that an entry is or that it leads to. -/
def file? (fs : FileSystem) (origin : Origin) (e : ListedEntry) : Option FileNode :=
  match e.node with
  | .link target =>
    match fs.followLink origin.links (origin.location ++ e.trail) (e.path origin.path) target with
    | .ok place => if place.node.isFile then some place.node else none
    | .error _ => none
  | node => if node.isFile then some node else none

/-- The file that an entry is or that it leads to, if the name of the entry matches. -/
def matching? (fs : FileSystem) (options : SourceOptions) (origin : Origin) (e : ListedEntry) :
    Option FileNode :=
  if nameMatches options.suffix e.name then e.file? fs origin else none

/-- What a walk makes of an entry: a text, a failure, or nothing. -/
def attempt? (fs : FileSystem) (options : SourceOptions) (origin : Origin) (e : ListedEntry) :
    Option (Except LoadError Source) :=
  if e.Reached options then
    match e.listingFailure? options origin.path with
    | some failure => some (.error failure)
    | none => (e.matching? fs options origin).map (FileNode.read (e.path origin.path))
  else none

section Attempt

variable (fs : FileSystem) {options : SourceOptions} (origin : Origin) {e : ListedEntry}

theorem attempt?_of_listingFailure {failure : LoadError} (h : e.Reached options)
    (hlisting : e.listingFailure? options origin.path = some failure) :
    e.attempt? fs options origin = some (.error failure) := by
  rw [attempt?, if_pos h, hlisting]

theorem attempt?_of_listable (h : e.Reached options)
    (hlisting : e.listingFailure? options origin.path = none) :
    e.attempt? fs options origin =
      (e.matching? fs options origin).map (FileNode.read (e.path origin.path)) := by
  rw [attempt?, if_pos h, hlisting]

end Attempt

end ListedEntry

namespace Loading

/-- Store a text, or fail. -/
def attempt : Except LoadError Source → Loading Unit
  | .ok source => modify (· ++ [source])
  | .error e => throw e

/-- Attempts one after the other, up to the first that fails. -/
def perform (attempts : List (Except LoadError Source)) : Loading Unit := forM attempts attempt

theorem perform_cons (a : Except LoadError Source) (as : List (Except LoadError Source)) :
    perform (a :: as) = (do attempt a; perform as) := List.forM_cons

theorem perform_singleton (a : Except LoadError Source) : perform [a] = attempt a := by
  rw [perform_cons]
  exact bind_pure _

theorem perform_append (as bs : List (Except LoadError Source)) :
    perform (as ++ bs) = (do perform as; perform bs) := List.forM_append

theorem attempt_read (path : String) (n : FileNode) : attempt (n.read path) = node path n := by
  rw [node, FileNode.read]
  cases n.textAt path <;> rfl

/-! ### What attempts store -/

/-- Attempts that all succeed store their texts. -/
theorem into_perform_ok (added sources : Sources) :
    (perform (added.map .ok)).into sources = (.ok (), sources ++ added) := by
  induction added generalizing sources with
  | nil => simp [perform]
  | cons source rest ih =>
    rw [List.map_cons, perform_cons, into_bind, attempt, into_modify]
    simp only [ih, List.append_assoc, List.singleton_append]

/-- Attempts store the texts in front of the first failure. -/
theorem into_perform_error (added : Sources) (e : LoadError)
    (rest : List (Except LoadError Source)) (sources : Sources) :
    (perform (added.map .ok ++ .error e :: rest)).into sources = (.error e, sources ++ added) := by
  rw [perform_append, into_bind, into_perform_ok, perform_cons]
  simp [attempt]

/-- Either all attempts succeed, or there is a first that fails. -/
theorem attempts_cases (as : List (Except LoadError Source)) :
    (∃ added, as = List.map .ok added) ∨
      ∃ added e rest, as = List.map .ok added ++ .error e :: rest := by
  induction as with
  | nil => exact .inl ⟨[], rfl⟩
  | cons a as ih =>
    rcases a with e | source
    · exact .inr ⟨[], e, as, rfl⟩
    · rcases ih with ⟨added, rfl⟩ | ⟨added, e, rest, rfl⟩
      · exact .inl ⟨source :: added, rfl⟩
      · exact .inr ⟨source :: added, e, rest, rfl⟩

end Loading

/-! ### Walks -/

section Walk

variable (fs : FileSystem) (options : SourceOptions) (origin : Origin)

namespace Loading

/-- Nothing below a cache directory is attempted. -/
theorem filterMap_attempt?_of_cacheDir {trail : List String} (h : options.cacheDir ∈ trail)
    (listed : List (String × FileNode)) :
    (FileNode.listEntries trail listed).filterMap (·.attempt? fs options origin) = [] := by
  rw [List.filterMap_eq_nil_iff]
  intro e he
  exact if_neg (not_not_intro (FileNode.trail_subset_of_mem_listEntries trail listed e he h))

variable {trail : List String} {name : String} {n : FileNode}

variable {options} in
/-- At a directory itself nothing is attempted. -/
theorem attempt?_directory {listed : List (String × FileNode)}
    (hlisting : ListedEntry.listingFailure? options origin.path
      ⟨trail, name, .directory listed⟩ = none) :
    ListedEntry.attempt? fs options origin ⟨trail, name, .directory listed⟩ = none := by
  simp [ListedEntry.attempt?, hlisting, ListedEntry.matching?, ListedEntry.file?, FileNode.isFile]

/-- At an entry with nothing below it a walk loads the file that the entry is or leads to, if it
matches. -/
theorem perform_leaf (h : ListedEntry.Reached options ⟨trail, name, n⟩)
    (hleaf : ∀ listed, n ≠ .directory listed)
    (hlisting : ListedEntry.listingFailure? options origin.path ⟨trail, name, n⟩ = none) :
    perform ((FileNode.listEntry trail name n).filterMap (·.attempt? fs options origin)) =
      match ListedEntry.matching? fs options origin ⟨trail, name, n⟩ with
      | some found => node (Path.join (trail.foldl Path.join origin.path) name) found
      | none => pure () := by
  rw [FileNode.listEntry_leaf trail name hleaf]
  have hattempt := ListedEntry.attempt?_of_listable fs origin h hlisting
  cases hm : ListedEntry.matching? fs options origin ⟨trail, name, n⟩ with
  | none =>
    rw [hm, Option.map_none] at hattempt
    rw [List.filterMap_cons_none hattempt]
    rfl
  | some found =>
    rw [hm, Option.map_some] at hattempt
    rw [List.filterMap_cons_some hattempt, List.filterMap_nil, perform_singleton, attempt_read]
    rfl

/-- At a listing that fails a walk fails, whatever is listed behind it. -/
theorem perform_listingFailure {failure : LoadError} {rest : List ListedEntry}
    (h : ListedEntry.Reached options ⟨trail, name, n⟩)
    (hlisting : ListedEntry.listingFailure? options origin.path ⟨trail, name, n⟩ = some failure) :
    perform ((⟨trail, name, n⟩ :: rest).filterMap (·.attempt? fs options origin)) =
      throw failure := by
  have hattempt := ListedEntry.attempt?_of_listingFailure fs origin h hlisting
  rw [List.filterMap_cons_some hattempt, perform_cons, attempt]
  rfl

mutual

theorem entry_eq_perform (trail : List String) (h : options.cacheDir ∉ trail) (name : String) :
    ∀ node : FileNode,
      entry fs options origin.links (origin.location ++ trail) (trail.foldl Path.join origin.path)
          name node =
        perform ((FileNode.listEntry trail name node).filterMap (·.attempt? fs options origin))
  | .directory listed => by
    rw [entry, FileNode.listEntry]
    by_cases hname : name = options.cacheDir
    · have hlisting : ListedEntry.listingFailure? options origin.path
          ⟨trail, name, .directory listed⟩ = none := if_pos hname
      rw [if_pos hname, List.filterMap_cons_none (attempt?_directory fs origin hlisting),
        filterMap_attempt?_of_cacheDir fs options origin (by simp [hname])]
      rfl
    · have hlisting : ListedEntry.listingFailure? options origin.path
          ⟨trail, name, .directory listed⟩ =
            (Path.flaw? (Path.join (trail.foldl Path.join origin.path) name)).map _ := if_neg hname
      rw [if_neg hname]
      cases hflaw : Path.flaw? (Path.join (trail.foldl Path.join origin.path) name) with
      | some cause =>
        rw [hflaw, Option.map_some] at hlisting
        rw [perform_listingFailure fs options origin h hlisting]
        rfl
      | none =>
        have hentries := entries_eq_perform (trail ++ [name]) (by simp [h, Ne.symm hname]) listed
        rw [List.foldl_append, ← List.append_assoc] at hentries
        rw [hflaw, Option.map_none] at hlisting
        rw [List.filterMap_cons_none (attempt?_directory fs origin hlisting)]
        exact hentries
  | .file content => by
    rw [entry, perform_leaf fs options origin h (by nofun) rfl]
    simp only [ListedEntry.matching?, ListedEntry.file?, FileNode.isFile, if_true]
    split_ifs <;> rfl
  | .closedFile cause => by
    rw [entry, perform_leaf fs options origin h (by nofun) rfl]
    simp only [ListedEntry.matching?, ListedEntry.file?, FileNode.isFile, if_true]
    split_ifs <;> rfl
  | .link target => by
    rw [entry, perform_leaf fs options origin h (by nofun) rfl]
    simp only [ListedEntry.matching?, ListedEntry.file?, ListedEntry.path, ListedEntry.parent]
    cases fs.followLink origin.links (origin.location ++ trail)
        (Path.join (trail.foldl Path.join origin.path) name) target with
    | error cause => split_ifs <;> rfl
    | ok place =>
      cases hfile : place.node.isFile <;> cases hname : nameMatches options.suffix name <;>
        simp [hfile]
  | .other content => by
    rw [entry, perform_leaf fs options origin h (by nofun) rfl]
    simp [ListedEntry.matching?, ListedEntry.file?, FileNode.isFile]
  | .closedDirectory cause => by
    by_cases hname : name = options.cacheDir
    · have hlisting : ListedEntry.listingFailure? options origin.path
          ⟨trail, name, .closedDirectory cause⟩ = none := if_pos hname
      rw [entry, if_pos hname, perform_leaf fs options origin h (by nofun) hlisting]
      simp [ListedEntry.matching?, ListedEntry.file?, FileNode.isFile]
    · have hlisting : ListedEntry.listingFailure? options origin.path
          ⟨trail, name, .closedDirectory cause⟩ = some (.walk _ _) := if_neg hname
      rw [entry, if_neg hname, FileNode.listEntry_leaf trail name (by nofun),
        perform_listingFailure fs options origin h hlisting]
      rfl
  | .unlisted cause => by
    rw [entry, FileNode.listEntry_leaf trail name (by nofun),
      perform_listingFailure fs options origin h rfl]
    rfl

/-- Loading the entries of a directory performs the attempts along the list of everything below. -/
theorem entries_eq_perform (trail : List String) (h : options.cacheDir ∉ trail) :
    ∀ listed : List (String × FileNode),
      entries fs options origin.links (origin.location ++ trail)
          (trail.foldl Path.join origin.path) listed =
        perform ((FileNode.listEntries trail listed).filterMap (·.attempt? fs options origin))
  | [] => by rw [entries, FileNode.listEntries]; rfl
  | (name, node) :: rest => by
    rw [entries, FileNode.listEntries, List.filterMap_append, perform_append,
      entry_eq_perform trail h name node, entries_eq_perform trail h rest]

end

end Loading

end Walk

namespace FileSystem

theorem path_of_directoryAt {fs : FileSystem} {path : String} {origin : Origin}
    {listed : List (String × FileNode)} (h : fs.directoryAt path = .ok (origin, listed)) :
    origin.path = path := by
  unfold directoryAt at h
  split at h
  · cases h
    rfl
  all_goals cases h

/-- What a walk from a path attempts, in order. -/
def attempts (fs : FileSystem) (options : SourceOptions) (path : String) :
    List (Except LoadError Source) :=
  match fs.directoryAt path with
  | .ok (origin, listed) =>
    (FileNode.listEntries [] listed).filterMap (·.attempt? fs options origin)
  | .error cause => [.error (.walk path cause)]

/-- The text of the file at a path as a source. -/
def attempt (fs : FileSystem) (path : String) : Except LoadError Source :=
  match fs.readText path with
  | .ok text => .ok ⟨some path, text⟩
  | .error cause => .error (.read path cause)

theorem attempt_eq_error_iff {fs : FileSystem} {path : String} {e : LoadError} :
    fs.attempt path = .error e ↔
      ∃ cause, fs.readText path = .error cause ∧ e = .read path cause := by
  rw [attempt]
  cases fs.readText path <;> simp [eq_comm]

end FileSystem

namespace Loading

/-- **A walk performs the attempts along the list of entries.** -/
theorem walk_eq_perform (fs : FileSystem) (options : SourceOptions) (path : String) :
    walk fs options path = perform (fs.attempts options path) := by
  rw [walk, FileSystem.attempts]
  cases hstart : fs.directoryAt path with
  | error cause => exact (perform_singleton (.error (.walk path cause))).symm
  | ok found =>
    obtain ⟨origin, listed⟩ := found
    have h := entries_eq_perform fs options origin [] List.not_mem_nil listed
    rw [List.append_nil, List.foldl_nil, FileSystem.path_of_directoryAt hstart] at h
    exact h

theorem file_eq_attempt (fs : FileSystem) (path : String) :
    file fs path = attempt (fs.attempt path) := by
  rw [file, FileSystem.attempt]
  cases fs.readText path <;> rfl

theorem files_eq_perform (fs : FileSystem) (paths : List String) :
    files fs paths = perform (paths.map fs.attempt) := by
  rw [files, perform, List.forM_map]
  exact congrArg (forM paths) (funext (file_eq_attempt fs))

end Loading

end ConfigAudit
