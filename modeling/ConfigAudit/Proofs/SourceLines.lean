import ConfigAudit.Sources.Basic
import Mathlib.Data.List.Basic

/-!
# The lines of concatenated texts

The separator keeps texts apart, however they end: the concatenation has the lines of every text as
they are, an empty line after each, and an empty line at its end. So no line of one text runs into
the next, and a line comment at the end of a text hides nothing of what follows.

* `splitOnP_flatMap`: what is split at separators that stand twice after every part;
* `Sources.marked`: the concatenation with each character marked by the text it comes from;
* `lines_concatenated`: the lines, their origins, and texts that are inserted in batches.
-/

namespace ConfigAudit

/-! ### Splitting -/

variable {α β : Type} {p : β → Bool}

/-- Parts with two separators after each are split one by one. -/
theorem splitOnP_flatMap (parts : List α) (f : α → List β) (sep : β) (hsep : p sep = true) :
    (parts.flatMap fun a => f a ++ [sep, sep]).splitOnP p =
      (parts.flatMap fun a => (f a).splitOnP p ++ [[]]) ++ [[]] := by
  induction parts with
  | nil => rfl
  | cons a parts ih =>
    have hfirst (rest : List β) : (f a ++ [sep, sep] ++ rest).splitOnP p =
        (f a).splitOnP p ++ [[]] ++ rest.splitOnP p := by
      have htail : ([sep] ++ rest).splitOnP p = [[]] ++ rest.splitOnP p :=
        List.splitOnP_append_cons [] rest hsep
      rw [List.append_assoc, List.append_assoc, ← htail]
      exact List.splitOnP_append_cons (f a) ([sep] ++ rest) hsep
    rw [List.flatMap_cons, hfirst, ih, List.flatMap_cons, List.append_assoc _ _ [[]]]

/-- Splitting does not depend on what the test does not see. -/
theorem map_splitOnP (f : α → β) (l : List α) :
    (l.splitOnP fun a => p (f a)).map (List.map f) = (l.map f).splitOnP p := by
  induction l with
  | nil => rfl
  | cons a l ih =>
    rw [List.map_cons, List.splitOnP_cons_eq_if_modifyHead, List.splitOnP_cons_eq_if_modifyHead,
      ← ih]
    split_ifs
    · rfl
    · cases l.splitOnP fun a => p (f a) <;> rfl

namespace Sources

/-- The lines of a text are what stands between its newlines. A text that ends in a newline has an
empty last line, and the empty text has one empty line. -/
def linesOf (text : String) : List String := (text.toList.splitOn '\n').map String.ofList

/-- Add texts one after the other. -/
def insertAll (sources batch : Sources) : Sources :=
  batch.foldl (fun sources s => sources.insert s.path s.text) sources

/-- The characters of the concatenation, each with the place of the text that it comes from;
separators come from none. -/
def marked (sources : Sources) : List (Option ℕ × Char) :=
  sources.zipIdx.flatMap fun s =>
    s.1.text.toList.map (fun c => (some s.2, c)) ++ separator.toList.map fun c => (none, c)

/-! ### Concatenations -/

theorem toList_concatenated (sources : Sources) :
    sources.concatenated.toList = sources.flatMap fun s => s.text.toList ++ ['\n', '\n'] := by
  rw [concatenated, String.toList_join, List.flatMap_map]
  apply List.flatMap_congr
  intro s _
  rw [String.toList_append]
  rfl

theorem concatenated_append (first second : Sources) :
    concatenated (first ++ second) = first.concatenated ++ second.concatenated := by
  rw [concatenated, List.map_append, String.join_append]
  rfl

theorem insertAll_eq (sources batch : Sources) : sources.insertAll batch = sources ++ batch := by
  induction batch generalizing sources with
  | nil => exact (List.append_nil sources).symm
  | cons s batch ih =>
    have hnext : sources.insertAll (s :: batch) = (sources ++ [s]).insertAll batch := rfl
    rw [hnext, ih, List.append_assoc, List.singleton_append]

theorem linesOf_concatenated (sources : Sources) :
    linesOf sources.concatenated = (sources.flatMap fun s => linesOf s.text ++ [""]) ++ [""] := by
  have hsplit : (sources.flatMap fun s => s.text.toList ++ ['\n', '\n']).splitOn '\n' =
      (sources.flatMap fun s => s.text.toList.splitOn '\n' ++ [[]]) ++ [[]] :=
    splitOnP_flatMap sources (fun s => s.text.toList) '\n' rfl
  rw [linesOf, toList_concatenated, hsplit, List.map_append, List.map_flatMap]
  simp only [List.map_append]
  rfl

theorem marked_eq (sources : Sources) :
    sources.marked = sources.zipIdx.flatMap fun s =>
      s.1.text.toList.map (fun c => (some s.2, c)) ++ [(none, '\n'), (none, '\n')] := rfl

/-- Without its marks the marked text is the concatenation. -/
theorem map_marked (sources : Sources) :
    sources.marked.map Prod.snd = sources.concatenated.toList := by
  have htexts : sources.marked.map Prod.snd =
      (sources.zipIdx.map Prod.fst).flatMap fun s => s.text.toList ++ ['\n', '\n'] := by
    rw [marked_eq, List.map_flatMap, List.flatMap_map]
    simp [Function.comp_def]
  rw [htexts, List.zipIdx_map_fst, toList_concatenated]

/-- The lines of the marked text are those of the concatenation. -/
theorem linesOf_marked (sources : Sources) :
    (sources.marked.splitOnP fun m => m.2 == '\n').map
        (fun line => String.ofList (line.map Prod.snd)) = linesOf sources.concatenated := by
  have hlines := map_splitOnP (p := fun c => c == '\n') Prod.snd sources.marked
  rw [linesOf, List.splitOn, ← map_marked, ← hlines, List.map_map]
  rfl

/-- All characters of a line come from one text. -/
theorem origin_of_mem_splitOnP {sources : Sources} {line : List (Option ℕ × Char)}
    (h : line ∈ sources.marked.splitOnP fun m => m.2 == '\n') : ∃ i, ∀ m ∈ line, m.1 = some i := by
  rw [marked_eq, splitOnP_flatMap _ _ (none, '\n') rfl, List.mem_append, List.mem_flatMap] at h
  have hempty {line : List (Option ℕ × Char)} (h : line ∈ [[]]) :
      ∃ i, ∀ m ∈ line, m.1 = some i := by
    rw [List.mem_singleton.1 h]
    exact ⟨0, nofun⟩
  rcases h with ⟨⟨s, i⟩, -, h⟩ | h
  · rcases List.mem_append.1 h with h | h
    · -- the lines of a marked text are marked lines
      rw [← map_splitOnP] at h
      obtain ⟨piece, -, rfl⟩ := List.mem_map.1 h
      refine ⟨i, fun m hm => ?_⟩
      obtain ⟨c, -, rfl⟩ := List.mem_map.1 hm
      rfl
    · exact hempty h
  · exact hempty h

/-- **The lines of a concatenation.** They are the lines of every text in the order of insertion,
with one empty line after those of each text and one at the end. All characters of a line come from
one text. The concatenation of texts inserted in two batches is that of the first batch followed by
that of the second. -/
theorem lines_concatenated (sources : Sources) :
    linesOf sources.concatenated = (sources.flatMap fun s => linesOf s.text ++ [""]) ++ [""] ∧
    ((sources.marked.splitOnP fun m => m.2 == '\n').map
        (fun line => String.ofList (line.map Prod.snd)) = linesOf sources.concatenated ∧
      ∀ line ∈ sources.marked.splitOnP fun m => m.2 == '\n', ∃ i, ∀ m ∈ line, m.1 = some i) ∧
    ∀ first second : Sources,
      ((insertAll [] first).insertAll second).concatenated =
        (insertAll [] first).concatenated ++ (insertAll [] second).concatenated := by
  refine ⟨linesOf_concatenated sources,
    ⟨linesOf_marked sources, fun _ => origin_of_mem_splitOnP⟩, ?_⟩
  intro first second
  rw [insertAll_eq (insertAll [] first), insertAll_eq [] second, List.nil_append,
    concatenated_append]

/-- A text that ends in a comment, an empty one, and one that ends in a newline. -/
def raggedTexts : Sources := [⟨none, "a = 1 # b"⟩, ⟨some "b.tf", ""⟩, ⟨none, "c = 2\n"⟩]

theorem lines_concatenated_ragged :
    linesOf raggedTexts.concatenated = ["a = 1 # b", "", "", "", "c = 2", "", "", ""] ∧
      "c = 2".toList.map (fun c => (some 2, c)) ∈
        raggedTexts.marked.splitOnP (fun m => m.2 == '\n') ∧
      ∃ i, ∀ m ∈ "c = 2".toList.map fun c => (some 2, c), m.1 = some i := by
  have hmem : "c = 2".toList.map (fun c => (some 2, c)) ∈
      raggedTexts.marked.splitOnP (fun m => m.2 == '\n') := by decide
  obtain ⟨hlines, ⟨-, horigin⟩, -⟩ := lines_concatenated raggedTexts
  exact ⟨hlines.trans (by decide), hmem, horigin _ hmem⟩

end Sources

end ConfigAudit
