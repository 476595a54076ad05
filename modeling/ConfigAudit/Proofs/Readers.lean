import ConfigAudit.Text.Reader
import Mathlib.Tactic.Common

/-!
# What readers read

`Reads p text a rest` says that a reader takes a text away from the front of a longer one and
returns a value. The rest is named, because a reader may look at it before it stops. Readers that
run one after the other read one text after the other, and a loop reads the texts of its steps.

* `Reads.bind`: sequences;
* `Reads.iterate_next`, `Reads.iterate_last`: one step of a loop;
* `reads_run`: a run of characters ends where the rest begins.

`Yields p P` says of any text that a reader returns nothing but what satisfies a predicate. Whatever
stands before the last reader of a sequence may be passed over (`yields_bind`), and a loop keeps an
invariant (`Yields.iterate`).
-/

namespace ConfigAudit

namespace Reader

variable {α β σ : Type}

/-- The reader takes the text away from the front of the rest and returns the value. -/
def Reads (p : Reader α) (text : List Char) (a : α) (rest : List Char) : Prop :=
  p (Unread.ofList (text ++ rest)) = some (a, Unread.ofList rest)

theorem Reads.pure (a : α) (rest : List Char) : Reads (Pure.pure a) [] a rest := rfl

theorem Reads.bind {p : Reader α} {f : α → Reader β} {text text' rest : List Char} {a : α} {b : β}
    (hp : Reads p text a (text' ++ rest)) (hf : Reads (f a) text' b rest) :
    Reads (p >>= f) (text ++ text') b rest := by
  unfold Reads at *
  rw [List.append_assoc]
  show (p (Unread.ofList (text ++ (text' ++ rest)))).bind (fun x => f x.1 x.2) = _
  rw [hp]
  exact hf

/-- A reader that only looks ahead is followed by one that reads. -/
theorem Reads.bind_peek {p : Reader α} {f : α → Reader β} {text rest : List Char} {a : α} {b : β}
    (hp : Reads p [] a (text ++ rest)) (hf : Reads (f a) text b rest) :
    Reads (p >>= f) text b rest := hp.bind hf

/-- A reader is followed by one that reads nothing. -/
theorem Reads.bind_nil {p : Reader α} {f : α → Reader β} {text rest : List Char} {a : α} {b : β}
    (hp : Reads p text a rest) (hf : Reads (f a) [] b rest) : Reads (p >>= f) text b rest := by
  have h : Reads (p >>= f) (text ++ []) b rest := hp.bind hf
  rwa [List.append_nil] at h

/-- A reader of one character is followed by one that reads what comes after it. -/
theorem Reads.bind_cons {p : Reader α} {f : α → Reader β} {c : Char} {text rest : List Char} {a : α}
    {b : β} (hp : Reads p [c] a (text ++ rest)) (hf : Reads (f a) text b rest) :
    Reads (p >>= f) (c :: text) b rest := hp.bind hf

theorem Reads.readAll_eq {p : Reader α} {text : List Char} {a : α} (h : Reads p text a []) :
    readAll p text = some a := by
  unfold Reads at h
  rw [List.append_nil] at h
  simp [readAll, h]

/-! ### Characters -/

section Characters

variable (rest : List Char)

theorem reads_any (c : Char) : Reads any [c] c rest := rfl

theorem reads_char (c : Char) : Reads (char c) [c] () rest := by
  simp [Reads, char]

theorem reads_word (w : String) : Reads (word w) w.toList () rest := by
  simp [Reads, word, ← String.length_toList]

theorem reads_peek (c : Char) : Reads peek [] c (c :: rest) := rfl

theorem reads_looksLike (p : Char → Bool) (c : Char) :
    Reads (looksLike p) [] (p c) (c :: rest) := rfl

end Characters

/-- No character that satisfies the test comes first. -/
def Stops (p : Char → Bool) (rest : List Char) : Prop := ∀ c ∈ rest.head?, p c = false

@[simp] theorem stops_nil (p : Char → Bool) : Stops p [] := by
  simp [Stops]

@[simp] theorem stops_cons (p : Char → Bool) (c : Char) (rest : List Char) :
    Stops p (c :: rest) ↔ p c = false := by
  simp [Stops]

theorem reads_looksLike_false {p : Char → Bool} {rest : List Char} (h : Stops p rest) :
    Reads (looksLike p) [] false rest := by
  cases rest with
  | nil => rfl
  | cons c rest =>
    have hlooks := reads_looksLike rest p c
    rwa [(stops_cons p c rest).1 h] at hlooks

theorem takeWhile_append_of_stops {p : Char → Bool} {text rest : List Char}
    (htext : ∀ c ∈ text, p c = true) (hrest : Stops p rest) :
    (text ++ rest).takeWhile p = text := by
  rw [List.takeWhile_append_of_pos htext]
  cases rest with
  | nil => simp
  | cons c rest => simp [(stops_cons p c rest).1 hrest]

theorem reads_run {p : Char → Bool} {text rest : List Char} (htext : ∀ c ∈ text, p c = true)
    (hrest : Stops p rest) : Reads (run p) text text rest := by
  simp [Reads, run, takeWhile_append_of_stops htext hrest]

/-! ### Loops -/

section Loops

variable {step : σ → Reader (σ ⊕ β)} {state : σ} {text rest : List Char} {b : β}

theorem Reads.iterate_last (h : Reads (step state) text (.inr b) rest) :
    Reads (iterate step state) text b rest := by
  unfold Reads at *
  rw [iterate, h]

theorem Reads.iterate_next {next : σ} {text' : List Char} (htext : text ≠ [])
    (h : Reads (step state) text (.inl next) (text' ++ rest))
    (hnext : Reads (iterate step next) text' b rest) :
    Reads (iterate step state) (text ++ text') b rest := by
  have hpos : 0 < text.length := List.length_pos_iff.2 htext
  have hless : (Unread.ofList (text' ++ rest)).count <
      (Unread.ofList (text ++ (text' ++ rest))).count := by
    show (text' ++ rest).length < (text ++ (text' ++ rest)).length
    rw [@List.length_append _ text]
    omega
  unfold Reads at *
  rw [List.append_assoc, iterate, h]
  simp only [hless, if_true]
  exact hnext

end Loops

/-! ### What readers yield -/

/-- Every value that the reader returns, on any text, satisfies the predicate. -/
def Yields (p : Reader α) (P : α → Prop) : Prop := ∀ s a t, p s = some (a, t) → P a

section Yields

variable {p : Reader α} {P : α → Prop} {Q : β → Prop}

theorem Yields.pure {a : α} (h : P a) : Yields (Pure.pure a) P := by
  rintro s b t hs
  cases hs
  exact h

theorem yields_failure : Yields (failure : Reader α) P := nofun

theorem Yields.bind {f : α → Reader β} (hp : Yields p P) (hf : ∀ a, P a → Yields (f a) Q) :
    Yields (p >>= f) Q := by
  intro s b t hs
  obtain ⟨⟨a, r⟩, ha, hb⟩ := Option.bind_eq_some_iff.1 hs
  exact hf a (hp s a r ha) r b t hb

/-- Nothing need be known of what is read before. -/
theorem yields_bind {f : α → Reader β} (hf : ∀ a, Yields (f a) Q) : Yields (p >>= f) Q := by
  have hany : Yields p fun _ => True := fun _ _ _ _ => trivial
  exact hany.bind fun a _ => hf a

/-- A loop keeps an invariant of its states. -/
theorem Yields.iterate {step : σ → Reader (σ ⊕ β)} (inv : σ → Prop)
    (hstep : ∀ state, inv state → Yields (step state) (Sum.elim inv Q)) {state : σ}
    (h : inv state) : Yields (Reader.iterate step state) Q := by
  intro s b t hs
  fun_induction Reader.iterate step state s with
  | case1 => cases hs
  | case2 state s c r hlast =>
    cases hs
    exact hstep state h s _ _ hlast
  | case3 state s next r hnext _ ih => exact ih (hstep state h s _ _ hnext) hs
  | case4 => cases hs

theorem Yields.readAll (hp : Yields p P) {cs : List Char} {a : α}
    (h : Reader.readAll p cs = some a) : P a := by
  unfold Reader.readAll at h
  split at h
  · rename_i b t hb
    split_ifs at h
    cases h
    exact hp _ _ _ hb
  · cases h

end Yields

end Reader

end ConfigAudit
