import ConfigAudit.Json.Printer
import ConfigAudit.Json.Reader
import ConfigAudit.Proofs.Readers
import ConfigAudit.Proofs.ShortestDecimals

/-!
# Texts of numbers read back

JSON numbers are written as whole numbers or as the shortest decimals of doubles, with a point, with
an exponent, or with both. Each of these texts is read as a numeral, and a reader that rounds the
decimal of a numeral once finds the number again (`reads_numberChars`).

* `Numeral.nearest`: the number of a numeral, rounded once;
* `Written`: a numeral whose digits and exponent make up a given decimal;
* `written_positional`, `written_scientific`: the two layouts.
-/

namespace ConfigAudit

/-! ### Digits -/

section Digits

variable {n : ℕ}

theorem isDigit_of_mem_toDigits {c : Char} (h : c ∈ Nat.toDigits 10 n) : c.isDigit = true :=
  Nat.isDigit_of_mem_toDigits (by decide) (by decide) h

/-- Only zero begins with a zero. -/
theorem head?_toDigits_ne_zero (hn : 0 < n) : (Nat.toDigits 10 n).head? ≠ some '0' := by
  induction n using Nat.strong_induction_on with
  | _ n ih =>
    rw [Nat.toDigits_eq_if (by decide)]
    split_ifs with hlt
    · intro hhead
      have hdigit : n.digitChar = '0' := by simpa using hhead
      have hvalue : ∀ d < 10, d.digitChar = '0' → d = 0 := by decide
      have := hvalue n hlt hdigit
      omega
    · -- the first digit is the one of the tenth part
      rw [List.head?_append_of_ne_nil _ Nat.toDigits_ne_nil]
      exact ih (n / 10) (by omega) (by omega)

theorem ofDigitChars_append_replicate_zero (digits : List Char) (k : ℕ) :
    Nat.ofDigitChars 10 (digits ++ List.replicate k '0') 0 =
      10 ^ k * Nat.ofDigitChars 10 digits 0 := by
  rw [Nat.ofDigitChars_append, Nat.ofDigitChars_replicate_zero]

theorem ofDigitChars_replicate_zero_append (digits : List Char) (k : ℕ) :
    Nat.ofDigitChars 10 (List.replicate k '0' ++ digits) 0 = Nat.ofDigitChars 10 digits 0 := by
  rw [Nat.ofDigitChars_append, Nat.ofDigitChars_replicate_zero, Nat.mul_zero]

end Digits

/-- The whole numbers and the finite doubles. -/
inductive Number.Finite : Number → Prop
  | whole (n : ℤ) : Finite (.whole n)
  | real {x : Double} (hx : x.Finite) : Finite (.real x)

namespace Json

open Reader

/-- The number that is nearest to a numeral: a whole number if it has neither fraction nor exponent,
and otherwise the double to which its decimal is rounded. -/
def Numeral.nearest (numeral : Numeral) : Number :=
  match numeral.tail with
  | none => .whole (Double.signed numeral.negative (Nat.ofDigitChars 10 numeral.whole 0))
  | some (fraction, exponent) =>
    .real (Double.ofDecimal numeral.negative (Nat.ofDigitChars 10 (numeral.whole ++ fraction) 0)
      (exponent - fraction.length))

/-- Characters that a numeral could go on with. -/
def isNumeralChar (c : Char) : Bool := c.isDigit || c = '.' || c = 'e' || c = 'E'

/-! ### Parts of numerals -/

section Parts

variable {digits rest : List Char}

theorem stops_isDigit (h : Stops isNumeralChar rest) : Stops Char.isDigit rest := by
  intro c hc
  have := h c hc
  simp only [isNumeralChar, Bool.or_eq_false_iff] at this
  exact this.1.1.1

theorem stops_point (h : Stops isNumeralChar rest) : Stops (· = '.') rest := by
  intro c hc
  have := h c hc
  simp only [isNumeralChar, Bool.or_eq_false_iff] at this
  exact this.1.1.2

theorem stops_exponent (h : Stops isNumeralChar rest) :
    Stops (fun c => c = 'e' || c = 'E') rest := by
  intro c hc
  have := h c hc
  simp only [isNumeralChar, Bool.or_eq_false_iff] at this
  rw [Bool.or_eq_false_iff]
  exact ⟨this.1.2, this.2⟩

theorem reads_fractionPart_none (h : Stops (· = '.') rest) : Reads fractionPart [] none rest := by
  unfold fractionPart
  refine (reads_looksLike_false h).bind_peek ?_
  exact Reads.pure none rest

theorem reads_fractionPart (hdigits : ∀ c ∈ digits, c.isDigit = true) (hne : digits ≠ [])
    (hrest : Stops Char.isDigit rest) :
    Reads fractionPart ('.' :: digits) (some digits) rest := by
  have hempty : ¬ digits.isEmpty = true := by simpa using hne
  unfold fractionPart
  refine (reads_looksLike (digits ++ rest) _ '.').bind_peek ?_
  refine (reads_char _ '.').bind_cons ?_
  refine (reads_run hdigits hrest).bind_nil ?_
  simp only [if_neg hempty]
  exact Reads.pure (some digits) rest

theorem reads_exponentPart_none (h : Stops (fun c => c = 'e' || c = 'E') rest) :
    Reads exponentPart [] none rest := by
  unfold exponentPart
  refine (reads_looksLike_false h).bind_peek ?_
  exact Reads.pure none rest

/-- The sign of an exponent. -/
def exponentSign (e : ℤ) : Char := if e < 0 then '-' else '+'

theorem reads_exponentPart (e : ℤ) (hrest : Stops Char.isDigit rest) :
    Reads exponentPart ('e' :: exponentSign e :: Nat.toDigits 10 e.natAbs) (some e) rest := by
  have hempty : ¬ (Nat.toDigits 10 e.natAbs).isEmpty = true := by simp
  have hsign : exponentSign e = '+' ∨ exponentSign e = '-' := by
    unfold exponentSign
    split_ifs <;> simp
  have hvalue : (if exponentSign e = '-' then -(e.natAbs : ℤ) else e.natAbs) = e := by
    by_cases he : e < 0
    · rw [exponentSign, if_pos he, if_pos rfl]
      omega
    · rw [exponentSign, if_neg he, if_neg (by decide)]
      omega
  unfold exponentPart
  refine (reads_looksLike (exponentSign e :: Nat.toDigits 10 e.natAbs ++ rest) _ 'e').bind_peek ?_
  refine (reads_any _ 'e').bind_cons ?_
  refine (reads_peek (Nat.toDigits 10 e.natAbs ++ rest) (exponentSign e)).bind_peek ?_
  simp only [if_pos hsign]
  refine (reads_any _ (exponentSign e)).bind_cons ?_
  refine (reads_run (fun c hc => isDigit_of_mem_toDigits hc) hrest).bind_nil ?_
  simp only [if_neg hempty, Nat.ofDigitChars_ten_toDigits, hvalue]
  exact Reads.pure (some e) rest

end Parts

/-- The sign of a number, written only if it is negative. -/
def signChars (negative : Bool) : List Char := if negative then ['-'] else []

theorem reads_readNumeral (negative : Bool) {whole fractionText exponentText rest : List Char}
    {fraction : Option (List Char)} {exponent : Option ℤ} (hwhole : ∀ c ∈ whole, c.isDigit = true)
    (hne : whole ≠ []) (hzero : whole.head? = some '0' → whole.length ≤ 1)
    (hstops : Stops Char.isDigit (fractionText ++ (exponentText ++ rest)))
    (hfraction : Reads fractionPart fractionText fraction (exponentText ++ rest))
    (hexponent : Reads exponentPart exponentText exponent rest) :
    Reads readNumeral (signChars negative ++ (whole ++ (fractionText ++ exponentText)))
      ⟨negative, whole, numeralTail fraction exponent⟩ rest := by
  have hvalid : ¬ (whole.isEmpty = true ∨ whole.head? = some '0' ∧ 1 < whole.length) := by
    rintro (hempty | ⟨hhead, hlength⟩)
    · exact hne (List.isEmpty_iff.1 hempty)
    · have := hzero hhead
      omega
  -- what follows the sign
  have hafter {negative : Bool} : Reads (do
      let whole ← run Char.isDigit
      if whole.isEmpty ∨ (whole.head? = some '0' ∧ 1 < whole.length) then failure
      let fraction ← fractionPart
      let exponent ← exponentPart
      pure (⟨negative, whole, numeralTail fraction exponent⟩ : Numeral))
      (whole ++ (fractionText ++ exponentText))
      ⟨negative, whole, numeralTail fraction exponent⟩ rest := by
    rw [← List.append_assoc] at hstops
    refine (reads_run hwhole hstops).bind ?_
    simp only [if_neg hvalid]
    exact hfraction.bind (hexponent.bind_nil (Reads.pure _ rest))
  unfold readNumeral
  cases negative with
  | true =>
    refine (reads_looksLike (whole ++ (fractionText ++ exponentText) ++ rest) _ '-').bind_peek ?_
    exact (reads_char _ '-').bind_cons hafter
  | false =>
    -- without a sign, the first character is a digit
    have hminus : Stops (· = '-') (whole ++ (fractionText ++ exponentText) ++ rest) := by
      obtain ⟨c, tail, rfl⟩ := List.exists_cons_of_ne_nil hne
      rw [List.cons_append, List.cons_append, stops_cons, decide_eq_false_iff_not]
      rintro rfl
      exact absurd (hwhole '-' List.mem_cons_self) (by decide)
    exact (reads_looksLike_false hminus).bind_peek hafter

/-! ### Layouts of decimals -/

/-- A text that begins with a digit. -/
def BeginsWithDigit (text : List Char) : Prop := ∃ c rest, text = c :: rest ∧ c.isDigit = true

theorem beginsWithDigit_append {digits : List Char} (hdigits : ∀ c ∈ digits, c.isDigit = true)
    (hne : digits ≠ []) (text : List Char) : BeginsWithDigit (digits ++ text) := by
  obtain ⟨c, rest, rfl⟩ := List.exists_cons_of_ne_nil hne
  exact ⟨c, rest ++ text, rfl, hdigits c List.mem_cons_self⟩

/-- A text without sign that is read, with any sign before it, as a numeral that makes up a
decimal. -/
structure Written (text : List Char) (d : Decimal) (rest : List Char) : Prop where
  digit : BeginsWithDigit text
  reads : ∃ whole fraction exponent,
    (∀ negative, Reads readNumeral (signChars negative ++ text)
      ⟨negative, whole, some (fraction, exponent)⟩ rest) ∧
    (Nat.ofDigitChars 10 (whole ++ fraction) 0 : ℚ) * 10 ^ (exponent - fraction.length) = d.toRat

section Layouts

variable {d : Decimal} {rest : List Char}

theorem mem_digitChars {c : Char} (h : c ∈ d.digitChars) : c.isDigit = true :=
  isDigit_of_mem_toDigits h

theorem digitChars_ne_nil (d : Decimal) : d.digitChars ≠ [] := Nat.toDigits_ne_nil

theorem ofDigitChars_digitChars (d : Decimal) : Nat.ofDigitChars 10 d.digitChars 0 = d.digits :=
  Nat.ofDigitChars_ten_toDigits

theorem isDigit_of_mem_replicate_zero {k : ℕ} {c : Char} (h : c ∈ List.replicate k '0') :
    c.isDigit = true := by
  rw [List.eq_of_mem_replicate h]
  rfl

/-- Digits around a point. -/
theorem reads_withPoint (negative : Bool) {whole fraction : List Char}
    (hwhole : ∀ c ∈ whole, c.isDigit = true) (hne : whole ≠ [])
    (hzero : whole.head? = some '0' → whole.length ≤ 1)
    (hfraction : ∀ c ∈ fraction, c.isDigit = true) (hne' : fraction ≠ [])
    (hrest : Stops isNumeralChar rest) :
    Reads readNumeral (signChars negative ++ (whole ++ '.' :: fraction))
      ⟨negative, whole, some (fraction, 0)⟩ rest := by
  have hpart : Reads fractionPart ('.' :: fraction) (some fraction) ([] ++ rest) :=
    reads_fractionPart hfraction hne' (stops_isDigit hrest)
  have hread := reads_readNumeral negative hwhole hne hzero (by simp) hpart
    (reads_exponentPart_none (stops_exponent hrest))
  rwa [List.append_nil] at hread

theorem written_withPoint {whole fraction : List Char} (hwhole : ∀ c ∈ whole, c.isDigit = true)
    (hne : whole ≠ []) (hzero : whole.head? = some '0' → whole.length ≤ 1)
    (hfraction : ∀ c ∈ fraction, c.isDigit = true) (hne' : fraction ≠ [])
    (hrest : Stops isNumeralChar rest)
    (hvalue : (Nat.ofDigitChars 10 (whole ++ fraction) 0 : ℚ) * 10 ^ (0 - fraction.length : ℤ) =
      d.toRat) : Written (whole ++ '.' :: fraction) d rest := by
  refine ⟨beginsWithDigit_append hwhole hne _, whole, fraction, 0, fun negative => ?_, hvalue⟩
  exact reads_withPoint negative hwhole hne hzero hfraction hne' hrest

/-- Decimals below one: zeros between the point and the digits. -/
theorem written_small (d : Decimal) (hsmall : d.scientific < 0)
    (hrest : Stops isNumeralChar rest) :
    Written (Layout.positional d.digitChars d.scientific) d rest := by
  set zeros := List.replicate (-d.scientific - 1).toNat '0' with hzeros
  have hlayout : Layout.positional d.digitChars d.scientific =
      ['0'] ++ '.' :: (zeros ++ d.digitChars) := if_pos hsmall
  have hvalue : Nat.ofDigitChars 10 (['0'] ++ (zeros ++ d.digitChars)) 0 = d.digits := by
    rw [Nat.ofDigitChars_append]
    exact (ofDigitChars_replicate_zero_append _ _).trans (ofDigitChars_digitChars d)
  have hplaces : (0 : ℤ) - (zeros ++ d.digitChars).length = d.exponent := by
    rw [List.length_append, hzeros, List.length_replicate]
    unfold Decimal.scientific at *
    push_cast
    omega
  rw [hlayout]
  refine written_withPoint (by simp) (by simp) (by simp) ?_ ?_ hrest ?_
  · intro c hc
    rcases List.mem_append.1 hc with hc | hc
    · exact isDigit_of_mem_replicate_zero hc
    · exact mem_digitChars hc
  · simp [digitChars_ne_nil]
  · rw [hvalue, hplaces, Decimal.toRat]

theorem head?_digitChars_ne_zero (hd : 0 < d.digits) : d.digitChars.head? ≠ some '0' :=
  head?_toDigits_ne_zero hd

/-- Decimals without places after the point: zeros after the digits. -/
theorem written_whole (hd : 0 < d.digits) (hlarge : 0 ≤ d.scientific)
    (hlength : d.digitChars.length ≤ d.scientific.toNat + 1) (hrest : Stops isNumeralChar rest) :
    Written (Layout.positional d.digitChars d.scientific) d rest := by
  set zeros := List.replicate (d.scientific.toNat + 1 - d.digitChars.length) '0' with hzeros
  have hlayout : Layout.positional d.digitChars d.scientific =
      (d.digitChars ++ zeros) ++ '.' :: ['0'] := by
    rw [Layout.positional, if_neg (by omega)]
    simp only [if_pos hlength]
    rfl
  have hplaces : (d.scientific.toNat + 1 - d.digitChars.length : ℕ) = d.exponent := by
    unfold Decimal.scientific at *
    omega
  have hvalue : Nat.ofDigitChars 10 ((d.digitChars ++ zeros) ++ ['0']) 0 =
      10 * (10 ^ (d.scientific.toNat + 1 - d.digitChars.length) * d.digits) := by
    rw [Nat.ofDigitChars_append, hzeros, ofDigitChars_append_replicate_zero,
      ofDigitChars_digitChars]
    rfl
  rw [hlayout]
  refine written_withPoint ?_ ?_ ?_ (by simp) (by simp) hrest ?_
  · intro c hc
    rcases List.mem_append.1 hc with hc | hc
    · exact mem_digitChars hc
    · exact isDigit_of_mem_replicate_zero hc
  · simp [digitChars_ne_nil]
  · intro hhead
    rw [List.head?_append_of_ne_nil _ (digitChars_ne_nil d)] at hhead
    exact absurd hhead (head?_digitChars_ne_zero hd)
  · -- the zero after the point and its place cancel
    have hunit : (10 : ℚ) ^ (0 - (['0'].length : ℤ)) = 1 / 10 := by
      norm_num
    rw [hvalue, hunit, Decimal.toRat, ← hplaces, zpow_natCast]
    push_cast
    ring

/-- Decimals with digits on both sides of the point. -/
theorem written_split (hd : 0 < d.digits) (hlarge : 0 ≤ d.scientific)
    (hlength : d.scientific.toNat + 1 < d.digitChars.length) (hrest : Stops isNumeralChar rest) :
    Written (Layout.positional d.digitChars d.scientific) d rest := by
  have hlayout : Layout.positional d.digitChars d.scientific =
      d.digitChars.take (d.scientific.toNat + 1) ++
        '.' :: d.digitChars.drop (d.scientific.toNat + 1) := by
    rw [Layout.positional, if_neg (by omega)]
    simp only [if_neg (not_le.2 hlength)]
  have hplaces : (0 : ℤ) - (d.digitChars.drop (d.scientific.toNat + 1)).length = d.exponent := by
    rw [List.length_drop]
    unfold Decimal.scientific at *
    omega
  rw [hlayout]
  refine written_withPoint ?_ ?_ ?_ ?_ ?_ hrest ?_
  · exact fun c hc => mem_digitChars (List.mem_of_mem_take hc)
  · rw [ne_eq, List.take_eq_nil_iff, not_or]
    exact ⟨Nat.succ_ne_zero _, digitChars_ne_nil d⟩
  · intro hhead
    rw [List.head?_take, if_neg (Nat.succ_ne_zero _)] at hhead
    exact absurd hhead (head?_digitChars_ne_zero hd)
  · exact fun c hc => mem_digitChars (List.mem_of_mem_drop hc)
  · rw [ne_eq, List.drop_eq_nil_iff]
    omega
  · rw [List.take_append_drop, hplaces, ofDigitChars_digitChars, Decimal.toRat]

theorem written_positional (hd : 0 < d.digits) (hrest : Stops isNumeralChar rest) :
    Written (Layout.positional d.digitChars d.scientific) d rest := by
  by_cases hsmall : d.scientific < 0
  · exact written_small d hsmall hrest
  · by_cases hlength : d.digitChars.length ≤ d.scientific.toNat + 1
    · exact written_whole hd (not_lt.1 hsmall) hlength hrest
    · exact written_split hd (not_lt.1 hsmall) (not_le.1 hlength) hrest

/-- Decimals with one digit before the point and an exponent. -/
theorem written_scientific (d : Decimal) (hrest : Stops isNumeralChar rest) :
    Written (Layout.json.scientific d.digitChars d.scientific) d rest := by
  have hexponent := reads_exponentPart d.scientific (stops_isDigit hrest)
  have hsign : (if d.scientific < 0 then ['-'] else if Layout.json.plusSign then ['+'] else []) =
      [exponentSign d.scientific] := by
    unfold exponentSign
    split_ifs <;> simp_all [Layout.json]
  have hvalue := ofDigitChars_digitChars d
  have hdigits (c : Char) : c ∈ d.digitChars → c.isDigit = true := mem_digitChars
  have hplaces : d.scientific = d.exponent + d.digitChars.length - 1 := rfl
  have hne := digitChars_ne_nil d
  simp only [Layout.scientific, hsign]
  generalize d.digitChars = digits at *
  match digits, hne with
  | [c], _ =>
    have hc : ∀ c' ∈ [c], c'.isDigit = true := hdigits
    refine ⟨⟨c, _, rfl, hdigits c List.mem_cons_self⟩, [c], [], d.scientific, ?_, ?_⟩
    · intro negative
      have hpart : Reads fractionPart [] none
          (('e' :: exponentSign d.scientific :: Nat.toDigits 10 d.scientific.natAbs) ++ rest) :=
        reads_fractionPart_none (by simp)
      exact reads_readNumeral negative hc (by simp) (by simp) (by simp) hpart hexponent
    · rw [List.append_nil, hvalue, Decimal.toRat]
      congr 2
      simp only [List.length_singleton, List.length_nil] at *
      omega
  | c :: c' :: tail, _ =>
    have hc : ∀ x ∈ [c], x.isDigit = true := by
      intro x hx
      exact hdigits x (List.mem_cons.2 (.inl (List.mem_singleton.1 hx)))
    have htail : ∀ x ∈ c' :: tail, x.isDigit = true := by
      intro x hx
      exact hdigits x (List.mem_cons_of_mem c hx)
    refine ⟨⟨c, _, rfl, hdigits c List.mem_cons_self⟩, [c], c' :: tail, d.scientific, ?_, ?_⟩
    · intro negative
      have hpart : Reads fractionPart ('.' :: c' :: tail) (some (c' :: tail))
          (('e' :: exponentSign d.scientific :: Nat.toDigits 10 d.scientific.natAbs) ++ rest) :=
        reads_fractionPart htail (by simp) (by simp)
      exact reads_readNumeral negative hc (by simp) (by simp) (by simp) hpart hexponent
    · rw [List.singleton_append, hvalue, Decimal.toRat]
      congr 2
      simp only [List.length_cons] at *
      push_cast at *
      omega

theorem written_decimal (hd : 0 < d.digits) (hrest : Stops isNumeralChar rest) :
    Written (Layout.json.decimal d) d rest := by
  unfold Layout.decimal
  dsimp only
  split_ifs
  · exact written_positional hd hrest
  · exact written_scientific d hrest

end Layouts

/-! ### Numbers -/

section Numbers

variable {n : Number} {rest : List Char}

theorem numberChars_whole (n : ℤ) :
    numberChars (.whole n) = signChars (decide (n < 0)) ++ Nat.toDigits 10 n.natAbs := by
  unfold numberChars Number.wholeChars
  by_cases hn : n < 0
  · simp [hn, signChars]
  · simp [hn, signChars]

theorem numberChars_zero (s : Bool) :
    numberChars (.real (.finite s 0 0)) = signChars s ++ (['0'] ++ '.' :: ['0']) :=
  String.toList_ofList

theorem numberChars_real (s : Bool) {m : ℕ} (hm : 0 < m) (e : ℤ) :
    numberChars (.real (.finite s m e)) =
      signChars s ++ Layout.json.decimal (Double.shortest m e) := by
  have hrender : Layout.json.render (.finite s m e) =
      String.ofList (signChars s ++ Layout.json.decimal (Double.shortest m e)) := if_neg hm.ne'
  show (Layout.json.render (.finite s m e)).toList = _
  rw [hrender, String.toList_ofList]

/-- The text of a number: a sign, and what begins with a digit. -/
theorem numberChars_eq (h : n.Finite) :
    ∃ negative text, numberChars n = signChars negative ++ text ∧ BeginsWithDigit text := by
  have hdigits (k : ℕ) : BeginsWithDigit (Nat.toDigits 10 k) := by
    have := beginsWithDigit_append (fun c hc => isDigit_of_mem_toDigits hc)
      (Nat.toDigits_ne_nil (n := k)) []
    rwa [List.append_nil] at this
  cases h with
  | whole n => exact ⟨_, _, numberChars_whole n, hdigits n.natAbs⟩
  | real hx =>
    cases hx with
    | zero s => exact ⟨s, _, numberChars_zero s, '0', ['.', '0'], rfl, rfl⟩
    | @nonzero s m e hm =>
      have hwritten : Written (Layout.json.decimal (Double.shortest m e)) _ [] :=
        written_decimal (Double.shortest_near hm).1 (stops_nil _)
      exact ⟨s, _, numberChars_real s hm.pos e, hwritten.digit⟩

theorem reads_whole (n : ℤ) (hrest : Stops isNumeralChar rest) :
    Reads readNumeral (numberChars (.whole n))
      ⟨decide (n < 0), Nat.toDigits 10 n.natAbs, none⟩ rest := by
  have hzero : (Nat.toDigits 10 n.natAbs).head? = some '0' →
      (Nat.toDigits 10 n.natAbs).length ≤ 1 := by
    intro hhead
    rcases Nat.eq_zero_or_pos n.natAbs with habs | habs
    · rw [habs]
      exact le_refl 1
    · exact absurd hhead (head?_toDigits_ne_zero habs)
  have hstops : Stops Char.isDigit ([] ++ ([] ++ rest)) := stops_isDigit hrest
  have hfraction : Reads fractionPart [] none ([] ++ rest) :=
    reads_fractionPart_none (stops_point hrest)
  have hread := reads_readNumeral (decide (n < 0)) (fun c hc => isDigit_of_mem_toDigits hc)
    Nat.toDigits_ne_nil hzero hstops hfraction (reads_exponentPart_none (stops_exponent hrest))
  rw [List.append_nil, List.append_nil] at hread
  rw [numberChars_whole]
  exact hread

/-- **Numbers read back.** The numeral that is read from the text of a number stands for it. -/
theorem reads_numberChars (h : n.Finite) (hrest : Stops isNumeralChar rest) :
    ∃ numeral, Reads readNumeral (numberChars n) numeral rest ∧ numeral.nearest = n := by
  cases h with
  | whole n =>
    refine ⟨_, reads_whole n hrest, ?_⟩
    unfold Numeral.nearest
    simp only [Nat.ofDigitChars_ten_toDigits]
    unfold Double.signed
    by_cases hn : n < 0
    · simp only [hn, decide_true, if_true, Number.whole.injEq]
      omega
    · simp only [hn, decide_false, Bool.false_eq_true, if_false, Number.whole.injEq]
      omega
  | real hx =>
    cases hx with
    | zero s =>
      refine ⟨⟨s, ['0'], some (['0'], 0)⟩, ?_, rfl⟩
      rw [numberChars_zero]
      exact reads_withPoint s (by simp) (by simp) (by simp) (by simp) (by simp) hrest
    | @nonzero s m e hm =>
      obtain ⟨whole, fraction, exponent, hread, hvalue⟩ :=
        (written_decimal (Double.shortest_near hm).1 hrest).reads
      have hnearest : Numeral.nearest ⟨s, whole, some (fraction, exponent)⟩ =
          .real (.finite s m e) :=
        congrArg Number.real (Double.ofDecimal_of_eq_shortest hm hvalue s)
      refine ⟨_, ?_, hnearest⟩
      rw [numberChars_real s hm.pos]
      exact hread s

end Numbers

end Json

end ConfigAudit
