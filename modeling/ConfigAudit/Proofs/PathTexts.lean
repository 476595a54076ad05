import ConfigAudit.Proofs.QuotedKeys
import ConfigAudit.Proofs.References

/-!
# Paths read back

The path of a reference is one text, but every segment says by itself where it ends: a name at the
next mark, an index at its bracket, a key at the bracket after its closing quote. So the root and
the segments are read back from the path, as long as no name holds a mark, and equal paths come from
equal references.

* `Reference.ofPath?`: the reference that a path says;
* `reads_readSegment`, `reads_readSegments`: one segment, and the loop over all of them;
* `ofPath?_path`: a path is read back;
* `Expr.reference_of_path`: expressions with the same path denote the same reference.
-/

namespace ConfigAudit

open Reader

/-- The characters that divide the segments of a path. -/
def isPathMark (c : Char) : Bool := c = '.' || c = '[' || c = ']' || c = '"'

/-- A name without marks. -/
def PlainName (name : String) : Prop := ∀ c ∈ name.toList, isPathMark c = false

/-! ### Reading paths -/

namespace Segment

/-- A name, up to the next mark. -/
def readName : Reader String := do
  let name ← run fun c => !isPathMark c
  pure (String.ofList name)

/-- A whole number. -/
def readIndex : Reader Int := do
  match (← Json.readNumeral).nearest with
  | .whole n => pure n
  | .real _ => failure

/-- What stands between brackets: a key in quotes or an index. -/
def readInside : Reader Segment := do
  if ← looksLike (· = '"') then
    let key ← Quoted.readKey
    pure (.key (String.ofList key))
  else
    let n ← readIndex
    pure (.index n)

/-- A segment: a name after a point, or a key or an index in brackets. -/
def readSegment : Reader Segment := do
  if ← looksLike (· = '.') then
    char '.'
    let name ← readName
    pure (.name name)
  else
    char '['
    let s ← readInside
    char ']'
    pure s

/-- One segment, after those already read, or the end of the path. -/
def segmentStep (before : List Segment) : Reader (List Segment ⊕ List Segment) := do
  if ← atEnd then pure (.inr before.reverse)
  else
    let s ← readSegment
    pure (.inl (s :: before))

end Segment

namespace Reference

/-- A root and the segments after it. -/
def readPath : Reader Reference := do
  let root ← Segment.readName
  let segments ← iterate Segment.segmentStep []
  pure ⟨root, segments⟩

/-- The reference that a path says. -/
def ofPath? (path : String) : Option Reference := readAll readPath path.toList

end Reference

/-! ### Segments -/

namespace Segment

/-- Whether a segment is a name without marks, or no name. -/
def Plain : Segment → Prop
  | .name s => PlainName s
  | .index _ => True
  | .key _ => True

section Segments

variable {rest : List Char}

/-- No name goes on here. -/
abbrev EndsName (rest : List Char) : Prop := Stops (fun c => !isPathMark c) rest

theorem reads_readName {name : String} (hname : PlainName name) (hrest : EndsName rest) :
    Reads readName name.toList name rest := by
  have hmarks : ∀ c ∈ name.toList, (!isPathMark c) = true := by
    intro c hc
    rw [hname c hc, Bool.not_false]
  unfold readName
  refine (reads_run hmarks hrest).bind_nil ?_
  rw [String.ofList_toList]
  exact Reads.pure name rest

theorem reads_readIndex (n : ℤ) :
    Reads readIndex (Number.wholeChars n) n (']' :: rest) := by
  have hstops : Stops Json.isNumeralChar (']' :: rest) := (stops_cons _ _ _).2 rfl
  obtain ⟨numeral, hnumeral, hnearest⟩ := Json.reads_numberChars (.whole n) hstops
  unfold readIndex
  refine Reads.bind_nil hnumeral ?_
  rw [hnearest]
  exact Reads.pure n _

theorem reads_readInside_key (key : String) :
    Reads readInside (Quoted.encode key.toList) (.key key) (']' :: rest) := by
  unfold readInside
  refine (reads_looksLike _ _ '"').bind_peek ?_
  rw [if_pos (by simp)]
  refine (Quoted.reads_encode key.toList _).bind_nil ?_
  rw [String.ofList_toList]
  exact Reads.pure _ _

/-- The text of a whole number does not begin with a quote. -/
theorem stops_wholeChars (n : ℤ) (rest : List Char) :
    Stops (· = '"') (Number.wholeChars n ++ rest) := by
  obtain ⟨c, text, htext, hc⟩ := Json.exists_numberChars_eq_cons (.whole n)
  change Number.wholeChars n = c :: text at htext
  rw [htext, List.cons_append, stops_cons]
  refine decide_eq_false ?_
  rintro rfl
  exact absurd hc (by decide)

theorem reads_readInside_index (n : ℤ) :
    Reads readInside (Number.wholeChars n) (.index n) (']' :: rest) := by
  unfold readInside
  refine (reads_looksLike_false (stops_wholeChars n _)).bind_peek ?_
  rw [if_neg (by simp)]
  exact (reads_readIndex n).bind_nil (Reads.pure _ _)

/-- A segment in brackets is read back. -/
theorem reads_readSegment_bracket {text : List Char} {s : Segment}
    (h : Reads readInside text s (']' :: rest)) :
    Reads readSegment ('[' :: (text ++ [']'])) s rest := by
  unfold readSegment
  refine (reads_looksLike _ _ '[').bind_peek ?_
  rw [if_neg (by decide)]
  refine (reads_char _ '[').bind_cons (h.bind ?_)
  exact (reads_char rest ']').bind_nil (Reads.pure s rest)

/-- **A segment is read back** in front of the next one. -/
theorem reads_readSegment {s : Segment} (hs : s.Plain) (hrest : EndsName rest) :
    Reads readSegment s.chars s rest := by
  cases s with
  | name s =>
    unfold readSegment
    refine (reads_looksLike _ _ '.').bind_peek ?_
    rw [if_pos (by simp)]
    refine (reads_char _ '.').bind_cons ?_
    exact (reads_readName hs hrest).bind_nil (Reads.pure _ rest)
  | index n => exact reads_readSegment_bracket (reads_readInside_index n)
  | key s => exact reads_readSegment_bracket (reads_readInside_key s)

end Segments

/-! ### Paths -/

/-- A segment begins with a mark. -/
theorem endsName_chars (s : Segment) (rest : List Char) : EndsName (s.chars ++ rest) := by
  cases s <;> exact (stops_cons _ _ _).2 rfl

theorem endsName_flatMap_chars (segments : List Segment) :
    EndsName (segments.flatMap chars) := by
  cases segments with
  | nil => exact stops_nil _
  | cons s rest => exact endsName_chars s _

theorem chars_ne_nil (s : Segment) : s.chars ≠ [] := by
  cases s <;> simp [chars]

theorem reads_segmentStep_end (before : List Segment) :
    Reads (segmentStep before) [] (.inr before.reverse) [] := rfl

theorem reads_segmentStep {s : Segment} (hs : s.Plain) {rest : List Char} (hrest : EndsName rest)
    (before : List Segment) : Reads (segmentStep before) s.chars (.inl (s :: before)) rest := by
  have hmore : Reads atEnd [] false (s.chars ++ rest) := by
    cases s <;> rfl
  unfold segmentStep
  refine hmore.bind_peek ?_
  rw [if_neg (by decide)]
  exact (reads_readSegment hs hrest).bind_nil (Reads.pure _ rest)

/-- The segments of a path are read back up to its end. -/
theorem reads_readSegments {segments : List Segment} (h : ∀ s ∈ segments, s.Plain)
    (before : List Segment) :
    Reads (iterate segmentStep before) (segments.flatMap chars) (before.reverse ++ segments)
      [] := by
  induction segments generalizing before with
  | nil =>
    rw [List.append_nil]
    exact Reads.iterate_last (reads_segmentStep_end before)
  | cons s rest ih =>
    rw [List.forall_mem_cons] at h
    have hend : EndsName (rest.flatMap chars ++ []) := by
      rw [List.append_nil]
      exact endsName_flatMap_chars rest
    have hnext := ih h.2 (s :: before)
    rw [List.reverse_cons, List.append_assoc, List.singleton_append] at hnext
    rw [List.flatMap_cons]
    exact Reads.iterate_next (chars_ne_nil s) (reads_segmentStep h.1 hend before) hnext

end Segment

namespace Reference

/-- A reference whose names hold no marks. -/
structure Plain (r : Reference) : Prop where
  root : PlainName r.root
  segments : ∀ s ∈ r.segments, s.Plain

/-- **Paths are read back.** -/
theorem ofPath?_path {r : Reference} (h : r.Plain) : ofPath? r.path = some r := by
  have hend : Segment.EndsName (r.segments.flatMap Segment.chars ++ []) := by
    rw [List.append_nil]
    exact Segment.endsName_flatMap_chars r.segments
  have hread : Reads readPath r.pathChars r [] := by
    unfold readPath
    refine (Segment.reads_readName h.root hend).bind ?_
    exact (Segment.reads_readSegments h.segments []).bind_nil (Reads.pure _ [])
  rw [ofPath?, path, String.toList_ofList]
  exact hread.readAll_eq

end Reference

/-! ### Expressions -/

/-- The name that a step adds. -/
def Step.name? : Step → Option String
  | .attribute name => some name
  | _ => none

namespace Expr

/-- The names that a reference takes over from its expression: the root and the names of
attributes. -/
def names : Expr → List String
  | .variable name => [name]
  | .traversal base steps => base.names ++ steps.filterMap Step.name?
  | .parens inner => inner.names
  | .template [.interpolation _ inner] => inner.names
  | .heredoc [.interpolation _ inner] => inner.names
  | _ => []

/-- No name that a reference takes over holds a mark. -/
def PlainNames (e : Expr) : Prop := ∀ name ∈ e.names, PlainName name

theorem plain_of_step {steps : List Step}
    (hnames : ∀ name ∈ steps.filterMap Step.name?, PlainName name)
    {segments : List Segment} (h : List.Forall₂ Step.Denotes steps segments) :
    ∀ s ∈ segments, s.Plain := by
  induction h with
  | nil => nofun
  | @cons step s steps segments hstep _ ih =>
    have hrest : ∀ s ∈ segments, s.Plain := ih fun name hname => hnames name (by
      obtain ⟨other, hother, hadd⟩ := List.mem_filterMap.1 hname
      exact List.mem_filterMap.2 ⟨other, List.mem_cons_of_mem _ hother, hadd⟩)
    rw [List.forall_mem_cons]
    refine ⟨?_, hrest⟩
    cases hstep with
    | name name => exact hnames name (List.mem_filterMap.2 ⟨_, List.mem_cons_self, rfl⟩)
    | position n => exact trivial
    | number hkey => exact trivial
    | string hkey => exact trivial

theorem Denotes.plain {e : Expr} {r : Reference} (h : e.Denotes r) (hnames : e.PlainNames) :
    r.Plain := by
  induction h with
  | root name => exact ⟨hnames name List.mem_cons_self, nofun⟩
  | parens _ ih => exact ih hnames
  | interpolation _ ih => exact ih hnames
  | lines _ ih => exact ih hnames
  | traversal _ hsteps ih =>
    have hbase := ih fun name hname => hnames name (List.mem_append_left _ hname)
    have hafter :=
      plain_of_step (fun name hname => hnames name (List.mem_append_right _ hname)) hsteps
    refine ⟨hbase.root, fun s hs => ?_⟩
    rcases List.mem_append.1 hs with hs | hs
    · exact hbase.segments s hs
    · exact hafter s hs

/-- **Paths tell references apart.** Expressions with the same path denote the same reference: the
same root and, one by one, the same names, indices and keys, whatever characters the keys hold. The
path says which reference it is. -/
theorem reference_of_path {e e' : Expr} (hnames : e.PlainNames) (hnames' : e'.PlainNames)
    {path : String} (h : e.path? = some path) (h' : e'.path? = some path) :
    ∃ r, Reference.ofPath? path = some r ∧ e.reference? = some r ∧ e'.reference? = some r := by
  obtain ⟨r, hr, rfl⟩ := Option.map_eq_some_iff.1 h
  obtain ⟨r', hr', hpath⟩ := Option.map_eq_some_iff.1 h'
  have hread : Reference.ofPath? r.path = some r :=
    Reference.ofPath?_path ((reference?_eq_some_iff.1 hr).plain hnames)
  have hread' : Reference.ofPath? r'.path = some r' :=
    Reference.ofPath?_path ((reference?_eq_some_iff.1 hr').plain hnames')
  have hsame : r' = r := by
    rw [hpath, hread] at hread'
    exact (Option.some.inj hread').symm
  exact ⟨r, hread, hr, hsame ▸ hr'⟩

/-- A key that holds everything a path is made of. -/
def trickyKey : Expr := .string "a\"].b[\\\n\x01"

/-- An element of a map, with an index. -/
def keyedElement : Expr :=
  .traversal (.variable "local") [.attribute "tags", .index trickyKey, .position 0]

/-- The same element, grouped in another way. -/
def regroupedElement : Expr :=
  .traversal
    (.template [.interpolation ⟨false, false⟩
      (.traversal (.parens (.variable "local")) [.attribute "tags"])])
    [.index trickyKey, .index (.number (.whole 0))]

theorem reference_of_path_tricky :
    keyedElement.PlainNames ∧ regroupedElement.PlainNames ∧
      keyedElement.path? = some "local.tags[\"a\\\"].b[\\\\\\n\\x01\"][0]" ∧
      regroupedElement.path? = some "local.tags[\"a\\\"].b[\\\\\\n\\x01\"][0]" ∧
      ∃ r, Reference.ofPath? "local.tags[\"a\\\"].b[\\\\\\n\\x01\"][0]" = some r ∧
        keyedElement.reference? = some r ∧ regroupedElement.reference? = some r := by
  have hplain : ∀ name ∈ ["local", "tags"], PlainName name := by simp [PlainName, isPathMark]
  have hnames : keyedElement.PlainNames := hplain
  have hnames' : regroupedElement.PlainNames := hplain
  have hpath : keyedElement.path? = some "local.tags[\"a\\\"].b[\\\\\\n\\x01\"][0]" := by
    with_unfolding_all rfl
  have hpath' :
      regroupedElement.path? = some "local.tags[\"a\\\"].b[\\\\\\n\\x01\"][0]" := by
    with_unfolding_all rfl
  exact ⟨hnames, hnames', hpath, hpath', reference_of_path hnames hnames' hpath hpath'⟩

end Expr

end ConfigAudit
