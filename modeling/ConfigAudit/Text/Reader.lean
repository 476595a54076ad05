/-!
# Readers

A reader takes a text and returns a value with the text that remains, or nothing. Readers form a
monad; `iterate` is the one loop, and it ends because every further round has to leave fewer
characters. A text keeps the number of its characters, so that the comparison is no work.
-/

namespace ConfigAudit

/-- A text that is still to be read, with the number of its characters. -/
structure Unread where
  chars : List Char
  count : Nat
  count_eq : count = chars.length

namespace Unread

/-- A whole text. -/
def ofList (cs : List Char) : Unread := ⟨cs, cs.length, rfl⟩

/-- The text without its first characters. -/
def drop (s : Unread) (n : Nat) : Unread :=
  ⟨s.chars.drop n, s.count - n, by rw [s.count_eq, List.length_drop]⟩

/-- The characters tell texts apart. -/
theorem eq_of_chars {s t : Unread} (h : s.chars = t.chars) : s = t := by
  obtain ⟨cs, m, hm⟩ := s
  obtain ⟨ds, n, hn⟩ := t
  subst hm hn
  cases h
  rfl

@[simp] theorem chars_ofList (cs : List Char) : (ofList cs).chars = cs := rfl

@[simp] theorem ofList_chars (s : Unread) : ofList s.chars = s := eq_of_chars rfl

@[simp] theorem drop_ofList (cs : List Char) (n : Nat) :
    (ofList cs).drop n = ofList (cs.drop n) := eq_of_chars rfl

end Unread

/-- A function from the remaining text to a value and the text after it. -/
abbrev Reader := StateT Unread Option

namespace Reader

variable {α β σ : Type}

/-- Run a reader on a text that it has to use up. -/
def readAll (p : Reader α) (cs : List Char) : Option α :=
  match p (Unread.ofList cs) with
  | some (a, t) => if t.chars.isEmpty then some a else none
  | none => none

/-- The remaining characters. -/
def rest : Reader (List Char) := fun s => some (s.chars, s)

/-- The remaining text, to come back to. -/
def here : Reader Unread := fun s => some (s, s)

/-- Go back to an earlier remaining text. -/
def restore (s : Unread) : Reader Unit := fun _ => some ((), s)

/-- Leave out a number of characters. -/
def skip (n : Nat) : Reader Unit := fun s => some ((), s.drop n)

/-- The next character, which stays in place; the zero character at the end of the text. -/
def peek : Reader Char := fun s => some (s.chars.headD '\x00', s)

/-- The next character. -/
def any : Reader Char := fun s =>
  match s.chars with
  | [] => none
  | c :: _ => some (c, s.drop 1)

/-- One given character. -/
def char (c : Char) : Reader Unit := fun s =>
  match s.chars with
  | [] => none
  | d :: _ => if c = d then some ((), s.drop 1) else none

/-- One given word. -/
def word (w : String) : Reader Unit := fun s =>
  if w.toList.isPrefixOf s.chars then some ((), s.drop w.length) else none

/-- Whether a given word comes next. -/
def looksAt (w : String) : Reader Bool := fun s => some (w.toList.isPrefixOf s.chars, s)

/-- Whether the next character satisfies a test. -/
def looksLike (p : Char → Bool) : Reader Bool := fun s =>
  match s.chars with
  | [] => some (false, s)
  | c :: _ => some (p c, s)

/-- The longest run of characters that satisfy a test. -/
def run (p : Char → Bool) : Reader (List Char) := fun s =>
  let cs := s.chars.takeWhile p
  some (cs, s.drop cs.length)

/-- Whether the text is used up. -/
def atEnd : Reader Bool := fun s => some (s.chars.isEmpty, s)

/-- The reader if the text comes to it, and otherwise nothing read and nothing used. -/
def attempt (p : Reader α) : Reader (Option α) := fun s =>
  match p s with
  | some (a, t) => some (some a, t)
  | none => some (none, s)

/-- Repeat a step: it either finishes with a result or goes on with a new state, and then it must
have used at least one character. -/
def iterate (step : σ → Reader (σ ⊕ β)) (state : σ) (s : Unread) : Option (β × Unread) :=
  match step state s with
  | none => none
  | some (.inr b, t) => some (b, t)
  | some (.inl next, t) => if t.count < s.count then iterate step next t else none
termination_by s.count

/-- Repeat a reader until it fails; it has to use at least one character each time. -/
def many (p : Reader α) : Reader (List α) :=
  iterate (fun acc => do
    let some a ← attempt p | pure (.inr acc.reverse)
    pure (.inl (a :: acc))) []

end Reader

end ConfigAudit
