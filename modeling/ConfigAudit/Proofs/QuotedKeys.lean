import ConfigAudit.Proofs.JsonTexts
import ConfigAudit.Reference.Quoted
import ConfigAudit.Syntax.Quoted

/-!
# Quoted keys read back

A key in quotes is read to the first quote that no backslash stands before, one character or one
escape at a time. Whatever characters a key holds, it is read back from the way it is written, and
whatever follows the closing quote stays unread (`reads_encode`).

* `readEscape`: the escapes of quoted keys;
* `reads_encodeChar`: each character is read back from the way it stands inside quotes.
-/

namespace ConfigAudit

open Reader

/-! ### Code points -/

namespace Syntax

variable {rest : List Char}

/-- A code point below 256 is read back from two digits. -/
theorem reads_codePoint_two {n : ℕ} (hn : n < 256) :
    Reads (codePoint 2) (Quoted.hex2 n) (Char.ofNat n) rest := by
  have hvalue : (0 * 16 + n / 16) * 16 + n % 16 = n := by omega
  have hdigits : Reads (hexDigits 2 0) (Quoted.hex2 n) n rest := by
    refine (Json.reads_hexDigitValue (by omega)).bind_cons ?_
    refine (Json.reads_hexDigitValue (by omega)).bind_nil ?_
    rw [hvalue]
    exact Reads.pure n rest
  unfold codePoint
  refine hdigits.bind_nil ?_
  rw [if_pos (by omega)]
  exact Reads.pure _ rest

/-- Two zeros may stand before it. -/
theorem reads_codePoint_four {n : ℕ} (hn : n < 256) :
    Reads (codePoint 4) ('0' :: '0' :: Quoted.hex2 n) (Char.ofNat n) rest := by
  have hzero {rest : List Char} : Reads Json.hexDigitValue ['0'] 0 rest := rfl
  have hvalue : (((0 * 16 + 0) * 16 + 0) * 16 + n / 16) * 16 + n % 16 = n := by omega
  have hdigits : Reads (hexDigits 4 0) ('0' :: '0' :: Quoted.hex2 n) n rest := by
    refine hzero.bind_cons (hzero.bind_cons ?_)
    refine (Json.reads_hexDigitValue (by omega)).bind_cons ?_
    refine (Json.reads_hexDigitValue (by omega)).bind_nil ?_
    rw [hvalue]
    exact Reads.pure n rest
  unfold codePoint
  refine hdigits.bind_nil ?_
  rw [if_pos (by omega)]
  exact Reads.pure _ rest

end Syntax

namespace Quoted

/-! ### Reading keys -/

/-- The character that an escape stands for, after its backslash. -/
def readEscape : Reader Char := do
  match ← any with
  | '"' => pure '"'
  | '\\' => pure '\\'
  | 'a' => pure (Char.ofNat 7)
  | 'b' => pure (Char.ofNat 8)
  | 'f' => pure (Char.ofNat 12)
  | 'n' => pure '\n'
  | 'r' => pure '\r'
  | 't' => pure '\t'
  | 'v' => pure (Char.ofNat 11)
  | 'x' => Syntax.codePoint 2
  | 'u' => Syntax.codePoint 4
  | _ => failure

/-- One character of a key, after those already read, or its end at a quote. -/
def keyStep (before : List Char) : Reader (List Char ⊕ List Char) := do
  let c ← any
  if c = '"' then pure (.inr before.reverse)
  else if c = '\\' then
    let d ← readEscape
    pure (.inl (d :: before))
  else pure (.inl (c :: before))

/-- A key in quotes. -/
def readKey : Reader (List Char) := do
  char '"'
  iterate keyStep []

/-! ### Characters -/

section Characters

variable {before rest text : List Char} {c : Char}

theorem reads_keyStep_quote : Reads (keyStep before) ['"'] (.inr before.reverse) rest := by
  unfold keyStep
  refine (reads_any rest '"').bind_nil ?_
  rw [if_pos rfl]
  exact Reads.pure _ rest

theorem reads_keyStep_escape (h : Reads readEscape text c rest) :
    Reads (keyStep before) ('\\' :: text) (.inl (c :: before)) rest := by
  unfold keyStep
  refine (reads_any _ '\\').bind_cons ?_
  rw [if_neg (by decide), if_pos rfl]
  exact h.bind_nil (Reads.pure _ rest)

theorem reads_keyStep_plain (hquote : c ≠ '"') (hslash : c ≠ '\\') :
    Reads (keyStep before) [c] (.inl (c :: before)) rest := by
  unfold keyStep
  refine (reads_any rest c).bind_nil ?_
  rw [if_neg hquote, if_neg hslash]
  exact Reads.pure _ rest

theorem toNat_lt_of_isControl (h : isControl c = true) : c.toNat < 256 := by
  simp only [isControl, isAsciiControl, Bool.or_eq_true, Bool.and_eq_true, decide_eq_true_eq] at h
  omega

/-- Each character is read back from the way it stands inside quotes. -/
theorem reads_encodeChar (c : Char) :
    Reads (keyStep before) (encodeChar c) (.inl (c :: before)) rest := by
  have hcode {n : ℕ} (hn : c.toNat = n) : Char.ofNat n = c := hn ▸ Char.ofNat_toNat c
  fun_cases encodeChar c with
  | case1 hquote =>
    subst hquote
    exact reads_keyStep_escape rfl
  | case2 _ hslash =>
    subst hslash
    exact reads_keyStep_escape rfl
  | case3 _ _ hseven =>
    rw [← hcode hseven]
    exact reads_keyStep_escape rfl
  | case4 _ _ _ height =>
    rw [← hcode height]
    exact reads_keyStep_escape rfl
  | case5 _ _ _ _ htwelve =>
    rw [← hcode htwelve]
    exact reads_keyStep_escape rfl
  | case6 _ _ _ _ _ hnewline =>
    subst hnewline
    exact reads_keyStep_escape rfl
  | case7 _ _ _ _ _ _ hreturn =>
    subst hreturn
    exact reads_keyStep_escape rfl
  | case8 _ _ _ _ _ _ _ htab =>
    subst htab
    exact reads_keyStep_escape rfl
  | case9 _ _ _ _ _ _ _ _ heleven =>
    rw [← hcode heleven]
    exact reads_keyStep_escape rfl
  | case10 _ _ _ _ _ _ _ _ _ hascii =>
    -- the other control characters of ASCII are written by two digits
    have hcontrol : isControl c = true := by rw [isControl, hascii, Bool.true_or]
    have hdigits : Reads (Syntax.codePoint 2) (hex2 c.toNat) (Char.ofNat c.toNat) rest :=
      Syntax.reads_codePoint_two (toNat_lt_of_isControl hcontrol)
    rw [Char.ofNat_toNat] at hdigits
    exact reads_keyStep_escape ((reads_any _ 'x').bind_cons hdigits)
  | case11 _ _ _ _ _ _ _ _ _ _ hcontrol =>
    -- and those beyond ASCII by four
    have hdigits : Reads (Syntax.codePoint 4) ('0' :: '0' :: hex2 c.toNat) (Char.ofNat c.toNat)
        rest := Syntax.reads_codePoint_four (toNat_lt_of_isControl hcontrol)
    rw [Char.ofNat_toNat] at hdigits
    exact reads_keyStep_escape ((reads_any _ 'u').bind_cons hdigits)
  | case12 hquote hslash => exact reads_keyStep_plain hquote hslash

theorem encodeChar_ne_nil (c : Char) : encodeChar c ≠ [] := by
  fun_cases encodeChar c <;> simp

end Characters

/-! ### Keys -/

theorem reads_encodeChars (before key rest : List Char) :
    Reads (iterate keyStep before) (encodeChars key ++ ['"']) (before.reverse ++ key) rest := by
  induction key generalizing before with
  | nil =>
    rw [List.append_nil]
    exact Reads.iterate_last reads_keyStep_quote
  | cons c key ih =>
    rw [encodeChars, List.append_assoc]
    refine Reads.iterate_next (encodeChar_ne_nil c) (reads_encodeChar c) ?_
    have hnext := ih (c :: before)
    rwa [List.reverse_cons, List.append_assoc, List.singleton_append] at hnext

/-- **Keys are read back**, whatever follows the closing quote. -/
theorem reads_encode (key rest : List Char) : Reads readKey (encode key) key rest := by
  have hread : Reads (iterate keyStep []) (encodeChars key ++ ['"']) key rest :=
    reads_encodeChars [] key rest
  exact (reads_char _ '"').bind_cons hread

end Quoted

end ConfigAudit
