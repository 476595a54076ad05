import ConfigAudit.Proofs.Loading
import ConfigAudit.Proofs.PathNames
import ConfigAudit.Proofs.Relisting
import Mathlib.Data.List.Forall2

/-!
# What a directory loads

A walk that nothing obstructs picks up the files and the links to files that stand outside of cache
directories and whose names end in the suffix.

* `FileNode.Below`, `mem_listEntries`: what stands below a directory, entered through real
  directories only;
* `nodup_places_listEntries`: no place is listed twice;
* `ListedEntry.Picked`, `ListedEntry.Loads`: what is loaded, and as what;
* `directory_loads_picked`: the texts that a directory loads, in any listing order.
-/

namespace ConfigAudit

namespace FileNode

/-- What stands below the entries of a directory, which is reached along a trail: the entries
themselves, and what stands below those of them that are directories. -/
inductive Below : List String → List (String × FileNode) → ListedEntry → Prop
  | here {trail : List String} {listed : List (String × FileNode)} {name : String}
      {node : FileNode} (h : (name, node) ∈ listed) : Below trail listed ⟨trail, name, node⟩
  | inside {trail : List String} {listed inner : List (String × FileNode)} {name : String}
      {e : ListedEntry} (h : (name, .directory inner) ∈ listed)
      (hinner : Below (trail ++ [name]) inner e) : Below trail listed e

theorem Below.mono {trail : List String} {listed listed' : List (String × FileNode)}
    {e : ListedEntry} (h : Below trail listed e) (hsub : listed ⊆ listed') :
    Below trail listed' e := by
  cases h with
  | here hmem => exact .here (hsub hmem)
  | inside hmem hinner => exact .inside (hsub hmem) hinner

theorem mem_listEntry {trail : List String} {name : String} {node : FileNode} {e : ListedEntry} :
    e ∈ listEntry trail name node ↔
      e = ⟨trail, name, node⟩ ∨
        ∃ inner, node = .directory inner ∧ e ∈ listEntries (trail ++ [name]) inner := by
  cases node with
  | directory listed => simp [listEntry]
  | _ => simp [listEntry_leaf trail name]

mutual

theorem below_of_mem_listEntry (trail : List String) (name : String) :
    ∀ (node : FileNode) (e : ListedEntry), e ∈ listEntry trail name node →
      Below trail [(name, node)] e
  | .directory listed, e, h => by
    rw [listEntry, List.mem_cons] at h
    rcases h with rfl | h
    · exact .here (List.mem_singleton_self _)
    · exact .inside (List.mem_singleton_self _)
        (below_of_mem_listEntries (trail ++ [name]) listed e h)
  | .file _, e, h | .link _, e, h | .other _, e, h | .closedDirectory _, e, h | .unlisted _, e, h
  | .closedFile _, e, h => by
    rw [listEntry_leaf trail name (by nofun), List.mem_singleton] at h
    rw [h]
    exact .here (List.mem_singleton_self _)

theorem below_of_mem_listEntries (trail : List String) :
    ∀ (listed : List (String × FileNode)) (e : ListedEntry), e ∈ listEntries trail listed →
      Below trail listed e
  | [], e, h => by simp [listEntries] at h
  | (name, node) :: rest, e, h => by
    rw [listEntries, List.mem_append] at h
    rcases h with h | h
    · exact (below_of_mem_listEntry trail name node e h).mono (by simp)
    · exact (below_of_mem_listEntries trail rest e h).mono (List.subset_cons_self _ _)

end

/-- The list of everything below holds what stands below. -/
theorem mem_listEntries {trail : List String} {listed : List (String × FileNode)}
    {e : ListedEntry} : e ∈ listEntries trail listed ↔ Below trail listed e := by
  refine ⟨below_of_mem_listEntries trail listed e, fun h => ?_⟩
  induction h with
  | here hmem =>
    rw [listEntries_eq_flatMap, List.mem_flatMap]
    exact ⟨_, hmem, mem_listEntry.2 (.inl rfl)⟩
  | inside hmem _ ih =>
    rw [listEntries_eq_flatMap, List.mem_flatMap]
    exact ⟨_, hmem, mem_listEntry.2 (.inr ⟨_, rfl, ih⟩)⟩

end FileNode

/-! ### Places -/

/-- The place of an entry below the start. -/
def ListedEntry.place (e : ListedEntry) : List String := e.trail ++ [e.name]

namespace FileNode

theorem Below.exists_head {trail : List String} {listed : List (String × FileNode)}
    {e : ListedEntry} (h : Below trail listed e) :
    ∃ name ∈ OrderedMap.keys listed, trail ++ [name] <+: e.place := by
  induction h with
  | here hmem => exact ⟨_, List.mem_map_of_mem (f := Prod.fst) hmem, List.prefix_refl _⟩
  | inside hmem _ ih =>
    obtain ⟨inner, -, hprefix⟩ := ih
    exact ⟨_, List.mem_map_of_mem (f := Prod.fst) hmem, (List.prefix_append _ _).trans hprefix⟩

theorem prefix_of_mem_listEntry {trail : List String} {name : String} {node : FileNode}
    {e : ListedEntry} (h : e ∈ listEntry trail name node) : trail ++ [name] <+: e.place := by
  obtain ⟨_, hname, hprefix⟩ := (below_of_mem_listEntry trail name node e h).exists_head
  rw [OrderedMap.keys, List.map_singleton, List.mem_singleton] at hname
  rwa [hname] at hprefix

mutual

theorem nodup_places_listEntry (trail : List String) (name : String) :
    ∀ node : FileNode, node.DistinctNames → ((listEntry trail name node).map (·.place)).Nodup
  | .directory listed, h => by
    rw [DistinctNames] at h
    rw [listEntry, List.map_cons, List.nodup_cons]
    refine ⟨fun hmem => ?_, nodup_places_listEntries (trail ++ [name]) listed h.1 h.2⟩
    obtain ⟨e, he, hplace⟩ := List.mem_map.1 hmem
    obtain ⟨inner, -, hprefix⟩ := (mem_listEntries.1 he).exists_head
    have hlength := hprefix.length_le
    rw [hplace, ListedEntry.place] at hlength
    simp at hlength
  | .file _, _ | .link _, _ | .other _, _ | .closedDirectory _, _ | .unlisted _, _
  | .closedFile _, _ => by
    rw [listEntry_leaf trail name (by nofun)]
    exact List.nodup_singleton _

/-- Where no directory holds a name twice, no place is listed twice. -/
theorem nodup_places_listEntries (trail : List String) :
    ∀ listed : List (String × FileNode), OrderedMap.Distinct listed → AllDistinctNames listed →
      ((listEntries trail listed).map (·.place)).Nodup
  | [], _, _ => List.nodup_nil
  | (name, node) :: rest, hdistinct, hall => by
    rw [AllDistinctNames] at hall
    rw [OrderedMap.Distinct, OrderedMap.keys, List.map_cons, List.nodup_cons] at hdistinct
    rw [listEntries, List.map_append, List.nodup_append]
    refine ⟨nodup_places_listEntry trail name node hall.1,
      nodup_places_listEntries trail rest hdistinct.2 hall.2, ?_⟩
    -- Two entries with one place would stand below entries of one name.
    rintro _ hfirst _ hlater rfl
    obtain ⟨e, he, hplace⟩ := List.mem_map.1 hfirst
    obtain ⟨e', he', hplace'⟩ := List.mem_map.1 hlater
    obtain ⟨later, hmem, hprefix'⟩ := (mem_listEntries.1 he').exists_head
    have hprefix := prefix_of_mem_listEntry he
    rw [hplace] at hprefix
    rw [hplace'] at hprefix'
    have heq := List.prefix_of_prefix_length_le hprefix hprefix' (by simp)
    have hname : name = later := by simpa using heq.eq_of_length (by simp)
    exact hdistinct.1 (hname ▸ hmem)

end

end FileNode

namespace FileSystem

/-- Names that are resolved lead to the node that stands at the place. -/
theorem descend?_of_resolveNames {root : FileNode} {links : Nat} {here todo : List String}
    {place : Place} (h : resolveNames root links here todo = .ok place) :
    root.descend? place.location = some place.node := by
  fun_induction resolveNames root links here todo with
  | case1 links here node hhere =>
    cases h
    exact hhere
  | case3 _ _ _ _ _ ih | case4 _ _ _ _ _ _ ih | case8 _ _ _ _ _ _ _ _ _ _ _ ih
  | case10 _ _ _ _ _ _ _ _ _ _ _ _ ih => exact ih h
  | _ => cases h

theorem descend?_of_directoryAt {fs : FileSystem} {path : String} {origin : Origin}
    {listed : List (String × FileNode)} (h : fs.directoryAt path = .ok (origin, listed)) :
    fs.root.descend? origin.location = some (.directory listed) := by
  unfold directoryAt at h
  split at h
  · next found links hresolve =>
    cases h
    unfold resolve at hresolve
    split at hresolve
    · cases hresolve
    · exact descend?_of_resolveNames hresolve
  all_goals cases h

end FileSystem

/-! ### What is loaded -/

theorem FileNode.text_of_textAt {path text : String} {node : FileNode}
    (h : node.textAt path = .ok text) : node.text = .ok text := by
  unfold textAt at h
  split at h
  · cases h
  · exact h

namespace ListedEntry

variable {fs : FileSystem} {options : SourceOptions} {origin : Origin} {e : ListedEntry}

/-- Whether an entry is to be loaded: a file or a link to a file, with a name that ends in the
suffix, outside of all cache directories below the start. -/
structure Picked (fs : FileSystem) (options : SourceOptions) (origin : Origin) (e : ListedEntry) :
    Prop where
  outside : options.cacheDir ∉ e.trail
  suffix : options.suffix.toList <:+ e.name.toList
  file : e.node.isFile ∨ ∃ target place, e.node = .link target ∧
    fs.followLink origin.links (origin.location ++ e.trail) (e.path origin.path) target =
      .ok place ∧ place.node.isFile

/-- Whether a text is what an entry is loaded as: under its path, the content of the file that it is
or that it leads to. -/
structure Loads (fs : FileSystem) (origin : Origin) (e : ListedEntry) (source : Source) : Prop where
  path : source.path = some (e.path origin.path)
  text : ∃ file, e.file? fs origin = some file ∧ file.text = .ok source.text

theorem isSome_file? :
    (e.file? fs origin).isSome ↔ e.node.isFile ∨ ∃ target place, e.node = .link target ∧
      fs.followLink origin.links (origin.location ++ e.trail) (e.path origin.path) target =
        .ok place ∧ place.node.isFile := by
  obtain ⟨trail, name, node⟩ := e
  cases node with
  | link target =>
    have hlink : (FileNode.link target).isFile = false := rfl
    cases hfollow : fs.followLink origin.links (origin.location ++ trail)
        (ListedEntry.path origin.path ⟨trail, name, .link target⟩) target with
    | error cause => simp [file?, hfollow, hlink]
    | ok place => cases hfile : place.node.isFile <;> simp [file?, hfollow, hfile, hlink]
  | _ => simp [file?, FileNode.isFile]

/-- An entry is picked up if a walk reaches it and takes it for a matching file. -/
theorem picked_iff :
    e.Picked fs options origin ↔
      e.Reached options ∧ (e.matching? fs options origin).isSome := by
  have hmatching : (e.matching? fs options origin).isSome ↔
      options.suffix.toList <:+ e.name.toList ∧ (e.file? fs origin).isSome := by
    rw [matching?, nameMatches, ← List.isSuffixOf_iff_suffix]
    split_ifs with h <;> simp [h]
  rw [hmatching, isSome_file?]
  constructor
  · intro h
    exact ⟨h.outside, h.suffix, h.file⟩
  · rintro ⟨houtside, hsuffix, hfile⟩
    exact ⟨houtside, hsuffix, hfile⟩

instance : Decidable (e.Picked fs options origin) :=
  decidable_of_iff _ picked_iff.symm

/-- Whether a walk breaks off at an entry. -/
def Obstructs (fs : FileSystem) (options : SourceOptions) (origin : Origin) (e : ListedEntry) :
    Prop :=
  e.Reached options ∧ (e.Unlistable options origin.path ∨ e.Unreadable fs options origin)

/-- At an entry that it reaches and at which it does not break off, a walk goes by the file that
the entry is or leads to. -/
theorem attempt?_of_clear (hreached : e.Reached options)
    (hclear : ¬e.Obstructs fs options origin) :
    e.attempt? fs options origin =
      (e.matching? fs options origin).map (FileNode.read (e.path origin.path)) := by
  have hlistable : e.listingFailure? options origin.path = none := by
    rw [← Option.not_isSome_iff_eq_none, isSome_listingFailure?]
    intro hunlistable
    exact hclear ⟨hreached, .inl hunlistable⟩
  exact attempt?_of_listable fs origin hreached hlistable

/-- An entry that is picked up is loaded, unless the walk breaks off at it. -/
theorem attempt?_of_picked (h : e.Picked fs options origin)
    (hclear : ¬e.Obstructs fs options origin) :
    ∃ source, e.Loads fs origin source ∧
      e.attempt? fs options origin = some (.ok source) := by
  obtain ⟨hreached, hmatches⟩ := picked_iff.1 h
  obtain ⟨file, hmatching⟩ := Option.isSome_iff_exists.1 hmatches
  have hfile : e.file? fs origin = some file := by
    rw [matching?] at hmatching
    split_ifs at hmatching
    exact hmatching
  rw [attempt?_of_clear hreached hclear, hmatching, Option.map_some, FileNode.read]
  cases htext : file.textAt (e.path origin.path) with
  | ok text =>
    have hloads : e.Loads fs origin ⟨some (e.path origin.path), text⟩ :=
      ⟨rfl, file, hfile, FileNode.text_of_textAt htext⟩
    exact ⟨_, hloads, rfl⟩
  | error cause => exact (hclear ⟨hreached, .inr ⟨file, cause, hmatching, htext⟩⟩).elim

/-- An entry that is not picked up is passed over, unless the walk breaks off at it. -/
theorem attempt?_of_not_picked (h : ¬e.Picked fs options origin)
    (hclear : ¬e.Obstructs fs options origin) :
    e.attempt? fs options origin = none := by
  by_cases hreached : e.Reached options
  · have hmatching : e.matching? fs options origin = none := by
      rw [← Option.not_isSome_iff_eq_none]
      intro hmatches
      exact h (picked_iff.2 ⟨hreached, hmatches⟩)
    rw [attempt?_of_clear hreached hclear, hmatching, Option.map_none]
  · exact if_neg hreached

end ListedEntry

namespace FileSystem

variable {fs : FileSystem} {options : SourceOptions}

/-- Along entries at which it does not break off, a walk loads those that are picked up. -/
theorem filterMap_attempt?_of_clear (origin : Origin)
    (es : List ListedEntry)
    (hclear : ∀ e ∈ es, ¬e.Obstructs fs options origin) :
    ∃ added : Sources,
      List.Forall₂ (ListedEntry.Loads fs origin)
        (es.filter fun e => e.Picked fs options origin) added ∧
      es.filterMap (·.attempt? fs options origin) = added.map .ok := by
  induction es with
  | nil => exact ⟨[], .nil, rfl⟩
  | cons e rest ih =>
    obtain ⟨hfirst, hrest⟩ := List.forall_mem_cons.1 hclear
    obtain ⟨added, hadded, hattempts⟩ := ih hrest
    by_cases hpicked : e.Picked fs options origin
    · obtain ⟨source, hloads, hattempt⟩ :=
        ListedEntry.attempt?_of_picked hpicked hfirst
      refine ⟨source :: added, ?_, ?_⟩
      · rw [List.filter_cons_of_pos (by simpa using hpicked)]
        exact .cons hloads hadded
      · rw [List.filterMap_cons_some hattempt, hattempts, List.map_cons]
    · refine ⟨added, ?_, ?_⟩
      · rw [List.filter_cons_of_neg (by simpa using hpicked)]
        exact hadded
      · rw [List.filterMap_cons_none (ListedEntry.attempt?_of_not_picked hpicked hfirst), hattempts]

/-- Nothing is loaded if and only if nothing is picked up. -/
theorem loaded_eq_nil_iff {origin : Origin}
    {listed : List (String × FileNode)} {added : Sources}
    (h : List.Forall₂ (ListedEntry.Loads fs origin)
      ((FileNode.listEntries [] listed).filter fun e => e.Picked fs options origin) added) :
    added = [] ↔ ∀ e, FileNode.Below [] listed e → ¬e.Picked fs options origin := by
  rw [← List.length_eq_zero_iff, ← h.length_eq, List.length_eq_zero_iff, List.filter_eq_nil_iff]
  simp only [FileNode.mem_listEntries, decide_eq_true_eq]

/-- If nothing obstructs a walk, all its attempts succeed. -/
theorem attempts_of_clear {path : String} (hclear : ¬fs.Obstructed options path) :
    ∃ origin listed,
      ∃ added : Sources, fs.directoryAt path = .ok (origin, listed) ∧
        List.Forall₂ (ListedEntry.Loads fs origin)
          ((FileNode.listEntries [] listed).filter fun e => e.Picked fs options origin) added ∧
        fs.attempts options path = added.map .ok := by
  unfold Obstructed at hclear
  unfold attempts
  cases hstart : fs.directoryAt path with
  | error cause =>
    rw [hstart] at hclear
    exact (hclear trivial).elim
  | ok found =>
    obtain ⟨origin, listed⟩ := found
    rw [hstart] at hclear
    obtain ⟨added, hadded, hattempts⟩ :=
      filterMap_attempt?_of_clear origin (FileNode.listEntries [] listed)
        fun e he hobstructs => hclear ⟨e, he, hobstructs⟩
    exact ⟨origin, listed, added, rfl, hadded, hattempts⟩

end FileSystem

namespace Loading

variable {fs : FileSystem} {options : SourceOptions} {path : String}

/-- A walk whose attempts all succeed loads their texts, of which there has to be one. -/
theorem into_directory_of_ok {added : Sources} (h : fs.attempts options path = added.map .ok)
    (stored : Sources) :
    (directory fs options path).into stored =
      (if added = [] then .error (.noMatchingFiles path options.suffix) else .ok (),
        stored ++ added) := by
  rw [into_directory, walk_eq_perform, h, into_perform_ok]
  simp

/-- Attempts that are those of others in another order succeed as well. -/
theorem exists_perm_of_attempts {as : List (Except LoadError Source)} {added : Sources}
    (h : as.Perm (added.map .ok)) :
    ∃ added' : Sources, added'.Perm added ∧ as = added'.map .ok := by
  rcases attempts_cases as with ⟨added', rfl⟩ | ⟨added', e, rest, rfl⟩
  · exact ⟨added', (List.map_perm_map_iff fun _ _ => Except.ok.inj).1 h, rfl⟩
  · have hmem : Except.error e ∈ added.map Except.ok := h.mem_iff.1 (by simp)
    simp at hmem

/-- In another listing order a directory loads the same texts in another order. -/
theorem into_directory_relisted {added : Sources} (hnames : fs.root.DistinctNames)
    (h : fs.attempts options path = added.map .ok) (order : ListingOrder) :
    ∃ added' : Sources, added'.Perm added ∧ ∀ stored,
      (directory (fs.relisted order) options path).into stored =
        (if added = [] then .error (.noMatchingFiles path options.suffix) else .ok (),
          stored ++ added') := by
  have hperm := FileSystem.perm_attempts_relisted order hnames options path
  rw [h] at hperm
  obtain ⟨added', hadded', hattempts⟩ := exists_perm_of_attempts hperm
  refine ⟨added', hadded', fun stored => ?_⟩
  have hempty : added' = [] ↔ added = [] := by
    rw [← List.length_eq_zero_iff, hadded'.length_eq, List.length_eq_zero_iff]
  rw [into_directory_of_ok hattempts]
  simp only [hempty]

end Loading

/-! ### Directories -/

/-- **What a directory loads.** If nothing obstructs the walk from a path, the path leads to a
directory, whatever its name, and

* in the list of everything below it, depth first in listing order, stands what is reached through
  real directories, each place once, as links to directories are not entered;
* what is loaded are, one for one and in the order of this list, the texts of the entries that are
  picked up;
* loading fails if and only if none is picked up, for that reason, and else succeeds;
* if directories list their entries in another order, loading ends in the same way and loads the
  same texts in another order. -/
theorem directory_loads_picked (fs : FileSystem) (options : SourceOptions) (path : String)
    (hclear : ¬fs.Obstructed options path) :
    ∃ origin listed added result,
      fs.directoryAt path = .ok (origin, listed) ∧ origin.path = path ∧
      (∀ e, e ∈ FileNode.listEntries [] listed ↔ FileNode.Below [] listed e) ∧
      List.Forall₂ (ListedEntry.Loads fs origin)
        ((FileNode.listEntries [] listed).filter fun e => e.Picked fs options origin) added ∧
      (∀ stored, (Loading.directory fs options path).into stored = (result, stored ++ added)) ∧
      (result = .error (.noMatchingFiles path options.suffix) ↔
        ∀ e, FileNode.Below [] listed e → ¬e.Picked fs options origin) ∧
      (result = .ok () ↔ ∃ e, FileNode.Below [] listed e ∧ e.Picked fs options origin) ∧
      (fs.root.DistinctNames →
        ((FileNode.listEntries [] listed).map (·.place)).Nodup ∧
        ∀ order : ListingOrder, ∃ added' : Sources, added'.Perm added ∧
          ∀ stored, (Loading.directory (fs.relisted order) options path).into stored =
            (result, stored ++ added')) := by
  obtain ⟨origin, listed, added, hstart, hadded, hattempts⟩ := FileSystem.attempts_of_clear hclear
  have hnone := FileSystem.loaded_eq_nil_iff hadded
  refine ⟨origin, listed, added,
    if added = [] then .error (.noMatchingFiles path options.suffix) else .ok (), hstart,
    FileSystem.path_of_directoryAt hstart, fun e => FileNode.mem_listEntries, hadded,
    Loading.into_directory_of_ok hattempts, ?_, ?_, ?_⟩
  · rw [← hnone]
    split_ifs with h <;> simp [h]
  · have hsome : (∃ e, FileNode.Below [] listed e ∧ e.Picked fs options origin) ↔ added ≠ [] := by
      rw [Ne, hnone, not_forall]
      simp only [not_forall, not_not, exists_prop]
    rw [hsome]
    split_ifs with h <;> simp [h]
  · intro hnames
    have hdirectory := hnames.of_descend? (FileSystem.descend?_of_directoryAt hstart)
    rw [FileNode.DistinctNames] at hdirectory
    exact ⟨FileNode.nodup_places_listEntries [] listed hdirectory.1 hdirectory.2,
      Loading.into_directory_relisted hnames hattempts⟩

/-- The entries of a directory with a cache directory in it, a directory whose name ends in the
suffix, and links to a directory around it, to one in it and to a file outside. -/
def linkedEntries : List (String × FileNode) := [
  ("main.tf", .file [97]),
  (".terraform", .directory [("vendored.tf", .file [98])]),
  ("modules.tf", .directory [("loop.tf", .link ".."), ("inner.tf", .file [99])]),
  ("linked.tf", .link "modules.tf"),
  ("shared.tf", .link "../shared"),
  ("pipe.tf", .other (.ok [])),
  ("notes.md", .file [100])]

/-- The directory, named like a cache directory itself, with the file next to it. -/
def linkedTree : FileSystem where
  root := .directory [
    ("work", .directory [(".terraform", .directory linkedEntries), ("shared", .file [101])])]
  workDir := ["work"]

/-- What is picked up from the tree with links. -/
def linkedTexts : Sources :=
  [⟨some ".terraform/main.tf", "a"⟩, ⟨some ".terraform/modules.tf/inner.tf", "c"⟩,
    ⟨some ".terraform/shared.tf", "e"⟩]

theorem attempts_linkedTree :
    linkedTree.attempts .standard ".terraform" = linkedTexts.map .ok := by
  have hstart : linkedTree.directoryAt ".terraform" =
      .ok (⟨".terraform", ["work", ".terraform"], FileSystem.maxLinks⟩, linkedEntries) := by
    have hnames : Path.names ".terraform" = [".terraform"] :=
      Path.names_of_notMem (by decide) (by decide)
    simp +decide [FileSystem.directoryAt, FileSystem.resolve, FileSystem.resolveNames, Path.flaw?,
      linkedTree, FileNode.descend?, FileNode.named?, hnames]
  have hloop : Path.names ".." = [".."] := Path.names_of_notMem (by decide) (by decide)
  have hlinked : Path.names "modules.tf" = ["modules.tf"] :=
    Path.names_of_notMem (by decide) (by decide)
  have hshared : Path.names "../shared" = ["..", "shared"] := by
    rw [Path.names_eq]
    decide
  -- the first two links lead to directories, the third to the file
  have hfollow : linkedTree.followLink FileSystem.maxLinks ["work", ".terraform", "modules.tf"]
        ".terraform/modules.tf/loop.tf" ".." =
        .ok ⟨["work", ".terraform"], .directory linkedEntries, 39⟩ ∧
      linkedTree.followLink FileSystem.maxLinks ["work", ".terraform"]
        ".terraform/linked.tf" "modules.tf" =
        .ok ⟨["work", ".terraform", "modules.tf"],
          .directory [("loop.tf", .link ".."), ("inner.tf", .file [99])], 39⟩ ∧
      linkedTree.followLink FileSystem.maxLinks ["work", ".terraform"]
        ".terraform/shared.tf" "../shared" = .ok ⟨["work", "shared"], .file [101], 39⟩ := by
    simp +decide [FileSystem.followLink, FileSystem.maxLinks, FileSystem.resolveNames, Path.flaw?,
      linkedTree, linkedEntries, FileNode.descend?, FileNode.named?, hloop,
      hlinked, hshared]
  have hmodules : Path.flaw? ".terraform/modules.tf" = none := by decide
  have hread : FileNode.read ".terraform/main.tf" (.file [97]) =
        .ok ⟨some ".terraform/main.tf", "a"⟩ ∧
      FileNode.read ".terraform/modules.tf/inner.tf" (.file [99]) =
        .ok ⟨some ".terraform/modules.tf/inner.tf", "c"⟩ ∧
      FileNode.read ".terraform/shared.tf" (.file [101]) =
        .ok ⟨some ".terraform/shared.tf", "e"⟩ := by
    with_unfolding_all exact ⟨rfl, rfl, rfl⟩
  simp +decide [FileSystem.attempts, hstart, linkedEntries, linkedTexts, FileNode.listEntries,
    FileNode.listEntry, FileNode.isFile, ListedEntry.attempt?, ListedEntry.listingFailure?,
    ListedEntry.Reached, ListedEntry.matching?, ListedEntry.file?, ListedEntry.path,
    ListedEntry.parent, Path.join, SourceOptions.standard, hmodules, hfollow,
    hread]

theorem distinctNames_linkedTree : linkedTree.root.DistinctNames := by
  simp [linkedTree, linkedEntries, FileNode.DistinctNames, FileNode.AllDistinctNames, OrderedMap.Distinct,
    OrderedMap.keys]

/-- The tree with links is walked from a directory named like a cache directory, no link to a
directory is entered, and the texts are the same in any listing order. -/
theorem directory_loads_picked_linked :
    ¬linkedTree.Obstructed .standard ".terraform" ∧
      (Loading.directory linkedTree .standard ".terraform").into [] = (.ok (), linkedTexts) ∧
      ∀ order : ListingOrder, ∃ added' : Sources, added'.Perm linkedTexts ∧
        (Loading.directory (linkedTree.relisted order) .standard ".terraform").into [] =
          (.ok (), added') := by
  have hclear : ¬linkedTree.Obstructed .standard ".terraform" := by
    rw [FileSystem.obstructed_iff, attempts_linkedTree]
    simp
  have hload : (Loading.directory linkedTree .standard ".terraform").into [] =
      (.ok (), linkedTexts) := by
    rw [Loading.into_directory_of_ok attempts_linkedTree]
    rfl
  obtain ⟨origin, listed, added, result, -, -, -, -, hinto, -, -, horder⟩ :=
    directory_loads_picked linkedTree .standard ".terraform" hclear
  obtain ⟨rfl, rfl⟩ : .ok () = result ∧ linkedTexts = added := by
    have h := hload.symm.trans (hinto [])
    rwa [List.nil_append, Prod.mk.injEq] at h
  refine ⟨hclear, hload, fun order => ?_⟩
  obtain ⟨added', hperm, hinto'⟩ := (horder distinctNames_linkedTree).2 order
  exact ⟨added', hperm, hinto' []⟩

end ConfigAudit
