import ConfigAudit.Proofs.QuotedKeys
import Mathlib.Algebra.Group.Nat.Even

/-!
# Where quoted keys end

A quoted key shows where it ends: of its quotes only the first and the last are bare, and all others
are escaped, that is, an odd number of backslashes stands right before them. No control character
is left inside.

* `Form`: the four ways in which a character stands inside quotes;
* `Form.even_slashesAtEnd`: none of them leaves a backslash that would escape what follows;
* `Form.eq_of_quote`: a quote comes right after a backslash of its own;
* `encode_self_delimiting`: quoted keys delimit themselves and are read back.
-/

namespace ConfigAudit.Quoted

open Reader

/-! ### Forms -/

/-- Whether a character is neither a mark of quoted keys nor a control character. -/
def isPlain (c : Char) : Bool := !isControl c && c != '"' && c != '\\'

/-- The ways in which a character stands inside quotes: a quote escaped, a backslash twice, a
control character as a letter with digits after it, any other character for itself. -/
inductive Form : List Char → Prop
  | quote : Form ['\\', '"']
  | slash : Form ['\\', '\\']
  | control {letter : Char} {digits : List Char} (h : (letter :: digits).all isPlain) :
      Form ('\\' :: letter :: digits)
  | plain {c : Char} (h : isPlain c) : Form [c]

theorem isPlain_hexDigit : ∀ n < 16, isPlain (Json.hexDigit n) := by decide

theorem isPlain_hex2 {n : ℕ} (hn : n < 256) : (hex2 n).all isPlain := by
  have hhigh : isPlain (Json.hexDigit (n / 16)) := isPlain_hexDigit _ (by omega)
  have hlow : isPlain (Json.hexDigit (n % 16)) := isPlain_hexDigit _ (by omega)
  simp [hex2, hhigh, hlow]

theorem form_encodeChar (c : Char) : Form (encodeChar c) := by
  fun_cases encodeChar c with
  | case1 => exact .quote
  | case2 => exact .slash
  -- the letters and zeros in front of the digits are plain by computation
  | case10 _ _ _ _ _ _ _ _ _ hascii =>
    have hcontrol : isControl c = true := by rw [isControl, hascii, Bool.true_or]
    exact .control (isPlain_hex2 (toNat_lt_of_isControl hcontrol))
  | case11 _ _ _ _ _ _ _ _ _ _ hcontrol =>
    exact .control (isPlain_hex2 (toNat_lt_of_isControl hcontrol))
  | case12 hquote hslash _ _ _ _ _ _ _ _ hcontrol => exact .plain (by simp [isPlain, *])
  | _ => exact .control rfl

/-! ### Backslashes -/

/-- The number of backslashes at the end of a text. -/
def slashesAtEnd (text : List Char) : ℕ := (text.reverse.takeWhile (· = '\\')).length

theorem slashesAtEnd_append_slash (text : List Char) :
    slashesAtEnd (text ++ ['\\']) = slashesAtEnd text + 1 := by
  simp [slashesAtEnd]

theorem slashesAtEnd_append_of_ne {c : Char} (hc : c ≠ '\\') (text : List Char) :
    slashesAtEnd (text ++ [c]) = 0 := by
  simp [slashesAtEnd, hc]

theorem ne_slash_of_isPlain {c : Char} (h : isPlain c) : c ≠ '\\' := by
  rintro rfl
  exact absurd h (by decide)

theorem ne_quote_of_isPlain {c : Char} (h : isPlain c) : c ≠ '"' := by
  rintro rfl
  exact absurd h (by decide)

theorem isControl_of_isPlain {c : Char} (h : isPlain c) : isControl c = false := by
  simp only [isPlain, Bool.and_eq_true, Bool.not_eq_true'] at h
  exact h.1.1

namespace Form

variable {text : List Char}

/-- No form holds a control character. -/
theorem isControl_eq_false (h : Form text) : ∀ c ∈ text, isControl c = false := by
  have hslash : isControl '\\' = false := rfl
  have hquote : isControl '"' = false := rfl
  cases h with
  | quote => simp [hslash, hquote]
  | slash => simp [hslash]
  | control h =>
    have hplain := List.all_eq_true.1 h
    exact List.forall_mem_cons.2 ⟨hslash, fun c hc => isControl_of_isPlain (hplain c hc)⟩
  | plain h => simp [isControl_of_isPlain h]

/-- After a form no backslash escapes what follows, if there was none before it. -/
theorem even_slashesAtEnd (h : Form text) {before : List Char}
    (hbefore : Even (slashesAtEnd before)) : Even (slashesAtEnd (before ++ text)) := by
  cases h with
  | quote =>
    have hend := slashesAtEnd_append_of_ne (c := '"') (by decide) (before ++ ['\\'])
    rw [List.append_assoc] at hend
    exact hend ▸ Even.zero
  | slash =>
    have hend : slashesAtEnd (before ++ ['\\', '\\']) = slashesAtEnd before + 1 + 1 := by
      rw [← slashesAtEnd_append_slash, ← slashesAtEnd_append_slash, List.append_assoc]
      rfl
    rw [hend, Nat.even_add_one, Nat.even_add_one, not_not]
    exact hbefore
  | @control letter digits h =>
    -- the last character is no backslash
    obtain ⟨front, last, hlast⟩ : ∃ front last, letter :: digits = front ++ [last] :=
      ⟨_, _, (List.dropLast_append_getLast (List.cons_ne_nil letter digits)).symm⟩
    have hplain : isPlain last := List.all_eq_true.1 h last (by rw [hlast]; simp)
    have hend := slashesAtEnd_append_of_ne (ne_slash_of_isPlain hplain) (before ++ '\\' :: front)
    rw [List.append_assoc, List.cons_append, ← hlast] at hend
    exact hend ▸ Even.zero
  | plain h => exact slashesAtEnd_append_of_ne (ne_slash_of_isPlain h) before ▸ Even.zero

/-- A quote in a form comes right after the backslash that the form begins with. -/
theorem eq_of_quote (h : Form text) {before after : List Char}
    (htext : text = before ++ '"' :: after) : before = ['\\'] := by
  have hmem : '"' ∈ text := by rw [htext]; simp
  cases h with
  | quote =>
    rcases before with _ | ⟨c, _ | ⟨d, before⟩⟩
    · simp at htext
    · rw [(List.cons.inj htext).1]
    · simp at htext
  | slash => simp at hmem
  | control h =>
    rcases List.mem_cons.1 hmem with hslash | hplain
    · exact absurd hslash (by decide)
    · exact absurd rfl (ne_quote_of_isPlain (List.all_eq_true.1 h _ hplain))
  | plain h =>
    rw [List.mem_singleton] at hmem
    exact absurd hmem.symm (ne_quote_of_isPlain h)

end Form

/-! ### Keys -/

theorem isControl_encodeChars (key : List Char) : ∀ c ∈ encodeChars key, isControl c = false := by
  induction key with
  | nil => exact nofun
  | cons c key ih =>
    rw [encodeChars, List.forall_mem_append]
    exact ⟨(form_encodeChar c).isControl_eq_false, ih⟩

/-- After the characters of a key no backslash escapes what follows. -/
theorem even_slashesAtEnd_encodeChars (key : List Char) {before : List Char}
    (hbefore : Even (slashesAtEnd before)) :
    Even (slashesAtEnd (before ++ encodeChars key)) := by
  induction key generalizing before with
  | nil => rwa [encodeChars, List.append_nil]
  | cons c key ih =>
    rw [encodeChars, ← List.append_assoc]
    exact ih ((form_encodeChar c).even_slashesAtEnd hbefore)

/-- A quote inside a key comes right after the backslash of its own form. -/
theorem exists_front_of_quote {key before after : List Char}
    (h : encodeChars key = before ++ '"' :: after) :
    ∃ front, before = encodeChars front ++ ['\\'] := by
  induction key generalizing before with
  | nil => simp [encodeChars] at h
  | cons c key ih =>
    -- the quote stands behind the form of the first character or in it
    rw [encodeChars] at h
    rcases List.append_eq_append_iff.1 h with ⟨before', rfl, hlater⟩ | ⟨after', hform, hlater⟩
    · obtain ⟨front, rfl⟩ := ih hlater
      exact ⟨c :: front, by rw [encodeChars, List.append_assoc]⟩
    · cases after' with
      | nil =>
        have hbegins : encodeChars key = [] ++ '"' :: after := hlater.symm
        obtain ⟨front, hfront⟩ := ih hbegins
        simp at hfront
      | cons d after' =>
        cases hlater
        exact ⟨[], (form_encodeChar c).eq_of_quote hform⟩

/-- Of the quotes of a quoted key all but the first and the last are escaped, and these two are
not. -/
theorem odd_slashesAtEnd_iff {key before after : List Char}
    (h : encode key = before ++ '"' :: after) :
    Odd (slashesAtEnd before) ↔ before ≠ [] ∧ after ≠ [] := by
  have hopening : Even (slashesAtEnd ['"']) := by decide
  have heven (front : List Char) : Even (slashesAtEnd ('"' :: encodeChars front)) :=
    even_slashesAtEnd_encodeChars front hopening
  rcases before with _ | ⟨opening, before⟩
  · simp [slashesAtEnd]
  · rw [encode, List.cons_append] at h
    obtain ⟨rfl, hinside⟩ := List.cons.inj h
    rcases List.eq_nil_or_concat after with rfl | ⟨after, closing, rfl⟩
    · obtain ⟨rfl, -⟩ := List.append_inj' hinside rfl
      simpa using heven key
    · rw [List.concat_eq_append, ← List.cons_append, ← List.append_assoc] at hinside
      obtain ⟨hquote, -⟩ := List.append_inj' hinside rfl
      obtain ⟨front, rfl⟩ := exists_front_of_quote hquote
      rw [← List.cons_append, slashesAtEnd_append_slash]
      simpa using (heven front).add_one

/-- **Quoted keys delimit themselves.** A quoted key begins and ends with a quote and holds no
control character, which are those up to 1f, 7f, and those from 80 to 9f. Every other quote in it is
escaped by an odd number of backslashes, while its first and its last quote are not. The key is read
back from it, whatever follows. -/
theorem encode_self_delimiting (key : List Char) :
    (∃ inside, encode key = '"' :: (inside ++ ['"'])) ∧
    (∀ c ∈ encode key,
      ¬(c.toNat ≤ 0x1f ∨ c.toNat = 0x7f ∨ (0x80 ≤ c.toNat ∧ c.toNat ≤ 0x9f))) ∧
    (∀ before after, encode key = before ++ '"' :: after →
      (Odd (slashesAtEnd before) ↔ before ≠ [] ∧ after ≠ [])) ∧
    ∀ rest, Reads readKey (encode key) key rest := by
  refine ⟨⟨encodeChars key, rfl⟩, ?_, fun _ _ => odd_slashesAtEnd_iff, reads_encode key⟩
  have hquote : isControl '"' = false := by decide
  have hinside : ∀ c ∈ encode key, isControl c = false := by
    rw [encode, List.forall_mem_cons, List.forall_mem_append]
    exact ⟨hquote, isControl_encodeChars key, by simpa using hquote⟩
  intro c hc
  have hcontrol := hinside c hc
  simp only [isControl, isAsciiControl, Bool.or_eq_false_iff, Bool.and_eq_false_iff,
    decide_eq_false_iff_not] at hcontrol
  omega

/-- A backslash, a quote and a control character: escapes that stand next to each other. -/
def escapedKey : List Char := ['\\', '"', '\x1f', '0']

theorem encode_self_delimiting_escaped :
    'x' ∈ encode escapedKey ∧
      ¬('x'.toNat ≤ 0x1f ∨ 'x'.toNat = 0x7f ∨ (0x80 ≤ 'x'.toNat ∧ 'x'.toNat ≤ 0x9f)) ∧
      encode escapedKey = "\"\\\\\\".toList ++ '"' :: "\\x1f0\"".toList ∧
      (Odd (slashesAtEnd "\"\\\\\\".toList) ↔
        "\"\\\\\\".toList ≠ [] ∧ "\\x1f0\"".toList ≠ []) ∧
      Reads readKey (encode escapedKey) escapedKey ['"', 'x'] := by
  have hmem : 'x' ∈ encode escapedKey := by decide
  have hencode : encode escapedKey = "\"\\\\\\".toList ++ '"' :: "\\x1f0\"".toList := by decide
  obtain ⟨-, hcontrol, hquotes, hread⟩ := encode_self_delimiting escapedKey
  exact ⟨hmem, hcontrol _ hmem, hencode, hquotes _ _ hencode, hread ['"', 'x']⟩

end ConfigAudit.Quoted
