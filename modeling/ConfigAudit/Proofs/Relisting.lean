import ConfigAudit.Proofs.OrderedMaps
import ConfigAudit.Proofs.Walks
import Mathlib.Data.List.Perm.Basic

/-!
# Directories listed in another order

A `ListingOrder` rearranges the entries of every directory of a tree. Names lead to the same entries
as before, as long as no directory holds a name twice, so paths and links lead to the same places.
A walk finds the same entries in another order, and makes the same of each.

* `FileNode.DistinctNames`: no directory holds a name twice;
* `FileNode.relisted`, `FileSystem.relisted`: the tree after rearranging;
* `descend?_relisted`, `resolveNames_relisted`: what names, paths and links lead to;
* `attempt?_relisted`: what a walk makes of an entry;
* `perm_attempts_relisted`: what it attempts on the whole.
-/

namespace ConfigAudit

/-- The order in which directories list their entries, given by the place of the directory and its
entries. No entry is lost or added. -/
structure ListingOrder where
  arrange : List String → List (String × FileNode) → List (String × FileNode)
  perm : ∀ place listed, (arrange place listed).Perm listed

namespace FileNode

theorem named?_eq_lookup (name : String) (listed : List (String × FileNode)) :
    named? name listed = OrderedMap.lookup listed name := by
  induction listed with
  | nil => rfl
  | cons e rest ih => rw [named?, OrderedMap.lookup, ih]

/-! ### Trees with distinct names -/

mutual

/-- No directory of the tree holds a name twice. -/
def DistinctNames : FileNode → Prop
  | .directory listed => OrderedMap.Distinct listed ∧ AllDistinctNames listed
  | _ => True

/-- No directory of the trees holds a name twice. -/
def AllDistinctNames : List (String × FileNode) → Prop
  | [] => True
  | (_, node) :: rest => node.DistinctNames ∧ AllDistinctNames rest

end

theorem allDistinctNames_iff {listed : List (String × FileNode)} :
    AllDistinctNames listed ↔ ∀ e ∈ listed, e.2.DistinctNames := by
  induction listed with
  | nil => simp [AllDistinctNames]
  | cons e rest ih => rw [AllDistinctNames, ih, List.forall_mem_cons]

theorem DistinctNames.of_named? {listed : List (String × FileNode)}
    (h : (directory listed).DistinctNames) {name : String} {node : FileNode}
    (hnode : named? name listed = some node) : node.DistinctNames := by
  rw [DistinctNames, allDistinctNames_iff] at h
  rw [named?_eq_lookup] at hnode
  exact h.2 _ (OrderedMap.mem_of_lookup_eq_some hnode)

theorem DistinctNames.of_descend? {root node : FileNode} (h : root.DistinctNames)
    {names : List String} (hnode : root.descend? names = some node) : node.DistinctNames := by
  induction names generalizing root with
  | nil =>
    rw [descend?] at hnode
    cases hnode
    exact h
  | cons name rest ih =>
    cases root with
    | directory listed =>
      rw [descend?] at hnode
      obtain ⟨child, hchild, hrest⟩ := Option.bind_eq_some_iff.1 hnode
      exact ih (h.of_named? hchild) hrest
    | _ => cases hnode

/-! ### Rearranged trees -/

mutual

/-- A tree that stands at a place, with its directories listed in another order. -/
def relisted (order : ListingOrder) (place : List String) : FileNode → FileNode
  | .directory listed => .directory (order.arrange place (relistedEntries order place listed))
  | node => node

/-- The entries of a directory, with the directories below listed in another order. -/
def relistedEntries (order : ListingOrder) (place : List String) :
    List (String × FileNode) → List (String × FileNode)
  | [] => []
  | (name, node) :: rest =>
    (name, node.relisted order (place ++ [name])) :: relistedEntries order place rest

end

section Relisted

variable (order : ListingOrder)

theorem relisted_leaf (place : List String) {node : FileNode}
    (h : ∀ listed, node ≠ .directory listed) : node.relisted order place = node := by
  cases node with
  | directory listed => exact absurd rfl (h listed)
  | _ => rw [relisted]; exact h

theorem relisted_of_isFile {node : FileNode} (h : node.isFile = true) (place : List String) :
    node.relisted order place = node := by
  apply relisted_leaf
  rintro listed rfl
  cases h

theorem isFile_relisted (node : FileNode) (place : List String) :
    (node.relisted order place).isFile = node.isFile := by
  cases node with
  | directory listed => rw [relisted]; rfl
  | _ => simp only [relisted]

theorem relistedEntries_eq_map (place : List String) (listed : List (String × FileNode)) :
    relistedEntries order place listed =
      listed.map fun e => (e.1, e.2.relisted order (place ++ [e.1])) := by
  induction listed with
  | nil => rfl
  | cons e rest ih => rw [relistedEntries, ih, List.map_cons]

/-- A name leads to the same entry. -/
theorem named?_relisted {listed : List (String × FileNode)} (h : OrderedMap.Distinct listed)
    (place : List String) (name : String) :
    named? name (order.arrange place (relistedEntries order place listed)) =
      (named? name listed).map (relisted order (place ++ [name])) := by
  have hdistinct : OrderedMap.Distinct (relistedEntries order place listed) := by
    rw [relistedEntries_eq_map, OrderedMap.Distinct,
      OrderedMap.keys_mapEntries fun name => relisted order (place ++ [name])]
    exact h
  rw [named?_eq_lookup, named?_eq_lookup,
    ← hdistinct.lookup_perm (order.perm place _).symm, relistedEntries_eq_map]
  exact OrderedMap.lookup_mapEntries (fun name => relisted order (place ++ [name])) _ _

/-- Names lead to the same nodes. -/
theorem descend?_relisted {node : FileNode} (h : node.DistinctNames) (place names : List String) :
    (node.relisted order place).descend? names =
      (node.descend? names).map (relisted order (place ++ names)) := by
  induction names generalizing node place with
  | nil => rw [descend?, descend?, List.append_nil, Option.map_some]
  | cons name rest ih =>
    cases node with
    | directory listed =>
      rw [relisted, descend?, descend?, named?_relisted order (by
        rw [DistinctNames] at h
        exact h.1)]
      cases hchild : named? name listed with
      | none => rfl
      | some child =>
        rw [Option.map_some, Option.bind_some, Option.bind_some, ih (h.of_named? hchild),
          List.append_assoc, List.singleton_append]
    | _ => simp only [relisted, descend?, Option.map_none]

end Relisted

end FileNode

/-! ### Paths and links -/

/-- A place with its node rearranged. -/
def Place.relisted (order : ListingOrder) (p : Place) : Place :=
  { p with node := p.node.relisted order p.location }

/-- A file system with its directories listed in another order. -/
def FileSystem.relisted (order : ListingOrder) (fs : FileSystem) : FileSystem :=
  { fs with root := fs.root.relisted order [] }

namespace FileSystem

section Relisted

variable (order : ListingOrder)

/-- Every node stands where it stood. -/
theorem descend?_relisted_root {root : FileNode} (h : root.DistinctNames) (names : List String) :
    (root.relisted order []).descend? names =
      (root.descend? names).map (FileNode.relisted order names) := by
  rw [FileNode.descend?_relisted order h, List.nil_append]

/-- Names that are resolved lead to the same places. -/
theorem resolveNames_relisted {root : FileNode} (h : root.DistinctNames) (links : Nat)
    (here todo : List String) :
    resolveNames (root.relisted order []) links here todo =
      (resolveNames root links here todo).map (Place.relisted order) := by
  have hdescend := descend?_relisted_root order h
  have hnamed {here : List String} {listed : List (String × FileNode)}
      (hhere : root.descend? here = some (.directory listed)) (name : String) :
      FileNode.named? name (order.arrange here (FileNode.relistedEntries order here listed)) =
        (FileNode.named? name listed).map (FileNode.relisted order (here ++ [name])) := by
    have hdistinct := h.of_descend? hhere
    rw [FileNode.DistinctNames] at hdistinct
    exact FileNode.named?_relisted order hdistinct.1 here name
  fun_induction resolveNames root links here todo with
  | case1 links here node hhere => simp [resolveNames, hdescend, hhere, Except.map, Place.relisted]
  | case2 links here hhere => simp [resolveNames, hdescend, hhere, Except.map]
  | case3 links here rest listed hhere ih =>
    simpa [resolveNames, hdescend, hhere, FileNode.relisted] using ih
  | case4 links here rest listed hhere hpoint ih =>
    simpa [resolveNames, hdescend, hhere, FileNode.relisted] using ih
  | case5 links here name rest listed hhere hpoint hpoints hname =>
    simp [resolveNames, hdescend, hhere, FileNode.relisted, hpoint, hpoints, hnamed hhere, hname,
      Except.map]
  | case6 here name rest listed hhere hpoint hpoints target hname =>
    simp [resolveNames, hdescend, hhere, FileNode.relisted, hpoint, hpoints, hnamed hhere, hname,
      Except.map]
  | case7 here name rest listed hhere hpoint hpoints target hname links hempty =>
    simp [resolveNames, hdescend, hhere, FileNode.relisted, hpoint, hpoints, hnamed hhere, hname,
      hempty, Except.map]
  | case8 here name rest listed hhere hpoint hpoints target hname links hempty ih =>
    simpa [resolveNames, hdescend, hhere, FileNode.relisted, hpoint, hpoints, hnamed hhere, hname,
      hempty] using ih
  | case9 links here name rest listed hhere hpoint hpoints cause hname =>
    simp [resolveNames, hdescend, hhere, FileNode.relisted, hpoint, hpoints, hnamed hhere, hname,
      Except.map]
  | case10 links here name rest listed hhere hpoint hpoints node hlink hunlisted hname ih =>
    cases node with
    | link target => exact (hlink target rfl).elim
    | unlisted cause => exact (hunlisted cause rfl).elim
    | _ =>
      simpa [resolveNames, hdescend, hhere, FileNode.relisted, hpoint, hpoints, hnamed hhere,
        hname] using ih
  | case11 links here name rest cause hhere =>
    simp [resolveNames, hdescend, hhere, FileNode.relisted, Except.map]
  | case12 links here name rest node hopen hclosed hhere =>
    cases node with
    | directory listed => exact (hopen listed rfl).elim
    | closedDirectory cause => exact (hclosed cause rfl).elim
    | _ => simp [resolveNames, hdescend, hhere, FileNode.relisted, Except.map]
  | case13 links here name rest hhere => simp [resolveNames, hdescend, hhere, Except.map]

/-- A path leads to the same place. -/
theorem resolve_relisted {fs : FileSystem} (h : fs.root.DistinctNames) (path : String) :
    (fs.relisted order).resolve path = (fs.resolve path).map (Place.relisted order) := by
  unfold resolve
  cases Path.flaw? path with
  | some cause => rfl
  | none => exact resolveNames_relisted order h _ _ _

/-- A link leads to the same place. -/
theorem followLink_relisted {fs : FileSystem} (h : fs.root.DistinctNames) (links : Nat)
    (directory : List String) (path target : String) :
    (fs.relisted order).followLink links directory path target =
      (fs.followLink links directory path target).map (Place.relisted order) := by
  unfold followLink
  cases Path.flaw? path with
  | some cause => rfl
  | none =>
    cases links with
    | zero => rfl
    | succ links =>
      simp only
      split_ifs
      · rfl
      · exact resolveNames_relisted order h _ _ _
      · exact resolveNames_relisted order h _ _ _

/-- The directory at a path is the same one, rearranged. -/
theorem directoryAt_relisted {fs : FileSystem} (h : fs.root.DistinctNames) (path : String) :
    (fs.relisted order).directoryAt path = (fs.directoryAt path).map fun found =>
      (found.1, order.arrange found.1.location
        (FileNode.relistedEntries order found.1.location found.2)) := by
  unfold directoryAt
  rw [resolve_relisted order h]
  cases fs.resolve path with
  | error cause => rfl
  | ok place =>
    obtain ⟨location, node, links⟩ := place
    cases node <;> simp [Except.map, Place.relisted, FileNode.relisted]

end Relisted

end FileSystem

/-! ### Walks -/

/-- An entry with its node rearranged; `location` is the place of the start. -/
def ListedEntry.relisted (order : ListingOrder) (location : List String) (e : ListedEntry) :
    ListedEntry :=
  { e with node := e.node.relisted order (location ++ e.trail ++ [e.name]) }

section Walk

variable (order : ListingOrder)

namespace FileNode

theorem listEntries_eq_flatMap (trail : List String) (listed : List (String × FileNode)) :
    listEntries trail listed = listed.flatMap fun e => listEntry trail e.1 e.2 := by
  induction listed with
  | nil => rfl
  | cons e rest ih => rw [listEntries, ih, List.flatMap_cons]

theorem perm_listEntries (trail : List String) {listed listed' : List (String × FileNode)}
    (h : listed.Perm listed') : (listEntries trail listed).Perm (listEntries trail listed') := by
  rw [listEntries_eq_flatMap, listEntries_eq_flatMap]
  exact h.flatMap_right _

mutual

theorem perm_listEntry_relisted (location trail : List String) (name : String) :
    ∀ node : FileNode,
      (listEntry trail name (node.relisted order (location ++ trail ++ [name]))).Perm
        ((listEntry trail name node).map (ListedEntry.relisted order location))
  | .directory listed => by
    have hinside := perm_listEntries_relisted location (trail ++ [name]) listed
    rw [← List.append_assoc] at hinside
    rw [relisted, listEntry, listEntry, List.map_cons, ListedEntry.relisted, relisted]
    exact ((perm_listEntries (trail ++ [name]) (order.perm _ _)).trans hinside).cons _
  | .file _ | .link _ | .other _ | .closedDirectory _ | .unlisted _ | .closedFile _ => by
    simp only [relisted, listEntry, List.map_singleton, ListedEntry.relisted]
    exact .refl _

/-- Below the same start stand the same entries, each of them rearranged. -/
theorem perm_listEntries_relisted (location trail : List String) :
    ∀ listed : List (String × FileNode),
      (listEntries trail (relistedEntries order (location ++ trail) listed)).Perm
        ((listEntries trail listed).map (ListedEntry.relisted order location))
  | [] => .refl _
  | (name, node) :: rest => by
    rw [relistedEntries, listEntries, listEntries, List.map_append]
    exact (perm_listEntry_relisted location trail name node).append
      (perm_listEntries_relisted location trail rest)

end

end FileNode

namespace ListedEntry

theorem listingFailure?_relisted (options : SourceOptions) (location : List String) (start : String)
    (e : ListedEntry) :
    (e.relisted order location).listingFailure? options start =
      e.listingFailure? options start := by
  obtain ⟨trail, name, node⟩ := e
  cases node with
  | directory listed =>
    simp only [relisted, FileNode.relisted, listingFailure?]
    rfl
  | _ => simp only [relisted, FileNode.relisted]

/-- An entry is or leads to the same file. -/
theorem file?_relisted {fs : FileSystem} (h : fs.root.DistinctNames) (origin : Origin)
    (e : ListedEntry) :
    (e.relisted order origin.location).file? (fs.relisted order) origin = e.file? fs origin := by
  obtain ⟨trail, name, node⟩ := e
  cases node with
  | link target =>
    simp only [relisted, FileNode.relisted, file?, FileSystem.followLink_relisted order h]
    cases fs.followLink origin.links (origin.location ++ trail)
        (path origin.path ⟨trail, name, .link target⟩) target with
    | error cause => rfl
    | ok place =>
      simp only [Except.map, Place.relisted, FileNode.isFile_relisted]
      split_ifs with hfile
      · rw [FileNode.relisted_of_isFile order hfile]
      · rfl
  | _ => simp [relisted, FileNode.relisted, file?, FileNode.isFile]

/-- A walk makes the same of an entry. -/
theorem attempt?_relisted {fs : FileSystem} (h : fs.root.DistinctNames) (options : SourceOptions)
    (origin : Origin) (e : ListedEntry) :
    (e.relisted order origin.location).attempt? (fs.relisted order) options origin =
      e.attempt? fs options origin := by
  unfold attempt? matching?
  rw [listingFailure?_relisted order, file?_relisted order h]
  rfl

end ListedEntry

/-- **In another listing order a walk attempts the same**, each as often as before. -/
theorem FileSystem.perm_attempts_relisted {fs : FileSystem} (h : fs.root.DistinctNames)
    (options : SourceOptions) (path : String) :
    ((fs.relisted order).attempts options path).Perm (fs.attempts options path) := by
  unfold attempts
  rw [directoryAt_relisted order h]
  cases fs.directoryAt path with
  | error cause => exact .refl _
  | ok found =>
    obtain ⟨origin, listed⟩ := found
    have hlisted := FileNode.perm_listEntries_relisted order origin.location [] listed
    rw [List.append_nil] at hlisted
    refine (((FileNode.perm_listEntries [] (order.perm origin.location _)).trans hlisted).filterMap
      _).trans ?_
    rw [List.filterMap_map]
    refine .of_eq (congrArg (List.filterMap · _) (funext fun e => ?_))
    exact ListedEntry.attempt?_relisted order h options origin e

end Walk

end ConfigAudit
