import ConfigAudit.Proofs.NumberTexts
import ConfigAudit.Proofs.OrderedMaps

/-!
# JSON texts read back

The compact text of a JSON value is read as the same value, whatever characters its strings hold and
however deeply it is nested (`parseExact?_compact`). The induction is on values that a text can
hold, `Storable`, for any rest of the text that could not belong to a number.

* `reads_quote`: strings and keys, by one step of the loop for each character;
* `reads_items`, `reads_members`: the loops over items and members, given their values;
* `fits_array`, `fits_object`: a text is longer than its values are nested.
-/

namespace ConfigAudit.Json

open Reader OrderedMap

/-! ### Strings -/

section Strings

variable {before rest text : List Char} {c : Char}

theorem reads_stringStep_quote :
    Reads (stringStep before) ['"'] (.inr (String.ofList before.reverse)) rest := by
  unfold stringStep
  refine (reads_any rest '"').bind_nil ?_
  rw [if_pos rfl]
  exact Reads.pure _ rest

theorem reads_stringStep_escape (h : Reads escapeSequence text c rest) :
    Reads (stringStep before) ('\\' :: text) (.inl (c :: before)) rest := by
  unfold stringStep
  refine (reads_any _ '\\').bind_cons ?_
  rw [if_neg (by decide), if_pos rfl]
  exact h.bind_nil (Reads.pure _ rest)

theorem reads_stringStep_plain (hquote : c ≠ '"') (hslash : c ≠ '\\') (hcontrol : 32 ≤ c.toNat) :
    Reads (stringStep before) [c] (.inl (c :: before)) rest := by
  unfold stringStep
  refine (reads_any rest c).bind_nil ?_
  rw [if_neg hquote, if_neg hslash, if_neg (by omega)]
  exact Reads.pure _ rest

theorem hexValue?_hexDigit : ∀ n < 16, hexValue? (hexDigit n) = some n := by
  decide

theorem reads_hexDigitValue {n : ℕ} (hn : n < 16) :
    Reads hexDigitValue [hexDigit n] n rest := by
  unfold hexDigitValue
  refine (reads_any rest (hexDigit n)).bind_nil ?_
  rw [hexValue?_hexDigit n hn]
  exact Reads.pure n rest

theorem reads_unicodeEscape {n : ℕ} (hn : n < 256) :
    Reads unicodeEscape ['0', '0', hexDigit (n / 16), hexDigit (n % 16)] (Char.ofNat n) rest := by
  have hzero {rest : List Char} : Reads hexDigitValue ['0'] 0 rest := rfl
  have hvalue : ((0 * 16 + 0) * 16 + n / 16) * 16 + n % 16 = n := by
    omega
  have hfour : Reads hex4 ['0', '0', hexDigit (n / 16), hexDigit (n % 16)] n rest := by
    unfold hex4
    refine hzero.bind_cons (hzero.bind_cons ?_)
    refine (reads_hexDigitValue (by omega)).bind_cons ?_
    refine (reads_hexDigitValue (by omega)).bind_nil ?_
    rw [hvalue]
    exact Reads.pure n rest
  unfold unicodeEscape
  refine hfour.bind_nil ?_
  rw [if_neg (by omega), if_neg (by omega)]
  exact Reads.pure _ rest

/-- Each character is read back from the way it stands inside quotes. -/
theorem reads_escapeChar (c : Char) :
    Reads (stringStep before) (escapeChar c) (.inl (c :: before)) rest := by
  have hcode {n : ℕ} (hn : c.toNat = n) : Char.ofNat n = c := hn ▸ Char.ofNat_toNat c
  unfold escapeChar
  split_ifs with hquote hslash height htwelve hnewline hreturn htab hcontrol
  · subst hquote
    exact reads_stringStep_escape rfl
  · subst hslash
    exact reads_stringStep_escape rfl
  · rw [← hcode height]
    exact reads_stringStep_escape rfl
  · rw [← hcode htwelve]
    exact reads_stringStep_escape rfl
  · subst hnewline
    exact reads_stringStep_escape rfl
  · subst hreturn
    exact reads_stringStep_escape rfl
  · subst htab
    exact reads_stringStep_escape rfl
  · -- a control character below 32 is written by its code
    have hunicode : Reads unicodeEscape ['0', '0', hexDigit (c.toNat / 16), hexDigit (c.toNat % 16)]
        (Char.ofNat c.toNat) rest := reads_unicodeEscape (by omega)
    rw [Char.ofNat_toNat] at hunicode
    exact reads_stringStep_escape ((reads_any _ 'u').bind_cons hunicode)
  · exact reads_stringStep_plain hquote hslash (by omega)

theorem escapeChar_ne_nil (c : Char) : escapeChar c ≠ [] := by
  unfold escapeChar
  split_ifs <;> simp

theorem reads_escape (before chars : List Char) :
    Reads (iterate stringStep before) (escape chars ++ ['"'])
      (String.ofList (before.reverse ++ chars)) rest := by
  induction chars generalizing before with
  | nil =>
    rw [List.append_nil]
    exact Reads.iterate_last reads_stringStep_quote
  | cons c chars ih =>
    rw [escape, List.append_assoc]
    refine Reads.iterate_next (escapeChar_ne_nil c) (reads_escapeChar c) ?_
    have hnext := ih (c :: before)
    rwa [List.reverse_cons, List.append_assoc, List.singleton_append] at hnext

/-- A quoted string is read back. -/
theorem reads_quote (s : String) : Reads readString (quote s) s rest := by
  have hread : Reads (iterate stringStep []) (escape s.toList ++ ['"'])
      (String.ofList s.toList) rest := reads_escape [] s.toList
  rw [String.ofList_toList] at hread
  exact (reads_char _ '"').bind_cons hread

end Strings

/-! ### Values -/

/-- A value that a text can hold: its numbers are whole or finite, no key occurs twice in an object,
and containers are nested at most to the depth. -/
inductive Storable : ℕ → Json → Prop
  | null {depth : ℕ} : Storable depth .null
  | bool {depth : ℕ} (b : Bool) : Storable depth (.bool b)
  | number {depth : ℕ} {n : Number} (hn : n.Finite) : Storable depth (.number n)
  | string {depth : ℕ} (s : String) : Storable depth (.string s)
  | array {depth : ℕ} {items : List Json} (hitems : ∀ j ∈ items, Storable depth j) :
      Storable (depth + 1) (.array items)
  | object {depth : ℕ} {members : OrderedMap Json} (hdistinct : members.Distinct)
      (hmembers : ∀ e ∈ members, Storable depth e.2) : Storable (depth + 1) (.object members)

/-- A value with numbers rounded once. -/
def readExact (depth : ℕ) : Reader Json := readValue (fun numeral => some numeral.nearest) depth

/-- A text that begins with a value: with neither a blank nor a closing bracket. -/
def Opens (text : List Char) : Prop :=
  ∃ c rest, text = c :: rest ∧ isBlank c = false ∧ c ≠ ']'

/-- The reader reads the compact text of the value as this value, in front of everything that does
not go on with a number. -/
structure ReadsBack (value : Reader Json) (j : Json) : Prop where
  opens : Opens (compactChars j)
  reads : ∀ rest, Stops isNumeralChar rest → Reads value (compactChars j) j rest

section Values

variable {rest text : List Char} {j : Json}

theorem Opens.append (h : Opens text) (rest : List Char) : Opens (text ++ rest) := by
  obtain ⟨c, tail, rfl, hc⟩ := h
  exact ⟨c, tail ++ rest, rfl, hc⟩

theorem Opens.stops (h : Opens text) : Stops isBlank text := by
  obtain ⟨c, tail, rfl, hc, -⟩ := h
  exact (stops_cons _ _ _).2 hc

theorem reads_blanks (h : Stops isBlank rest) : Reads blanks [] () rest := by
  unfold blanks
  have hrun : Reads (run isBlank) [] [] rest := reads_run (by simp) h
  exact hrun.bind_nil (Reads.pure () rest)

/-- The reader of a value is found by its first character. -/
theorem reads_readExact {c : Char} (depth : ℕ)
    (h : ∀ value, Reads (readFrom (fun numeral => some numeral.nearest) value c) (c :: text) j rest) :
    Reads (readExact depth) (c :: text) j rest := by
  cases depth with
  | zero => exact (reads_peek (text ++ rest) c).bind_peek (h _)
  | succ depth => exact (reads_peek (text ++ rest) c).bind_peek (h _)

/-! ### Numbers -/

theorem readFrom_numeral (convert : Numeral → Option Number) (value : Option (Reader Json)) {c : Char}
    (hc : c = '-' ∨ c.isDigit = true) :
    readFrom convert value c = readNumber convert >>= fun n => pure (Json.number n) := by
  unfold readFrom
  split
  all_goals first
    | rfl
    | exact absurd hc (by decide)

theorem reads_readNumber {n : Number} (hn : n.Finite) (hrest : Stops isNumeralChar rest) :
    Reads (readNumber fun numeral => some numeral.nearest) (numberChars n) n rest := by
  obtain ⟨numeral, hread, hnearest⟩ := reads_numberChars hn hrest
  unfold readNumber
  refine hread.bind_nil ?_
  rw [← hnearest]
  exact Reads.pure _ rest

/-- The first character of a number. -/
theorem exists_numberChars_eq_cons {n : Number} (hn : n.Finite) :
    ∃ c text, numberChars n = c :: text ∧ (c = '-' ∨ c.isDigit = true) := by
  obtain ⟨negative, text, htext, c, tail, rfl, hc⟩ := numberChars_eq hn
  cases negative with
  | true => exact ⟨'-', c :: tail, htext, .inl rfl⟩
  | false => exact ⟨c, tail, htext, .inr hc⟩

theorem readsBack_number {n : Number} (hn : n.Finite) (depth : ℕ) :
    ReadsBack (readExact depth) (.number n) := by
  obtain ⟨c, text, htext, hc⟩ := exists_numberChars_eq_cons hn
  constructor
  · have hblank : isBlank c = false ∧ c ≠ ']' := by
      have hne {d : Char} (hd : ¬ (d = '-' ∨ d.isDigit = true)) : c ≠ d := by
        rintro rfl
        exact hd hc
      refine ⟨?_, hne (by decide)⟩
      simp [isBlank, hne (d := ' ') (by decide), hne (d := '\t') (by decide),
        hne (d := '\n') (by decide), hne (d := '\r') (by decide)]
    exact ⟨c, text, htext, hblank⟩
  · intro rest hrest
    have hread := reads_readNumber hn hrest
    rw [compactChars, htext]
    rw [htext] at hread
    refine reads_readExact depth fun value => ?_
    rw [readFrom_numeral _ _ hc]
    exact hread.bind_nil (Reads.pure _ rest)

/-! ### Items -/

section Items

variable {value : Reader Json} {before : List Json}

theorem reads_itemStep_last (h : Reads value text j (']' :: rest)) :
    Reads (itemStep value before) (text ++ [']']) (.inr (j :: before).reverse) rest := by
  unfold itemStep
  refine Reads.bind h ?_
  refine (reads_blanks (by simp; decide)).bind_peek ?_
  exact (reads_any rest ']').bind_nil (Reads.pure _ rest)

theorem reads_itemStep_next (h : Reads value text j (',' :: rest)) (hrest : Stops isBlank rest) :
    Reads (itemStep value before) (text ++ [',']) (.inl (j :: before)) rest := by
  unfold itemStep
  refine Reads.bind h ?_
  refine (reads_blanks (by simp; decide)).bind_peek ?_
  refine (reads_any rest ',').bind_nil ?_
  exact (reads_blanks hrest).bind_nil (Reads.pure _ rest)

/-- The items of an array are read one after the other. -/
theorem reads_items (before : List Json) (j : Json) (items : List Json)
    (hvalue : ∀ i ∈ j :: items, ReadsBack value i) :
    Reads (iterate (itemStep value) before) (compactChars j ++ compactItems items)
      (before.reverse ++ j :: items) rest := by
  have hj := hvalue j List.mem_cons_self
  induction items generalizing before j with
  | nil =>
    have hlast : Reads (itemStep value before) (compactChars j ++ [']'])
        (.inr (j :: before).reverse) rest := reads_itemStep_last (hj.reads _ (by simp; decide))
    rw [List.reverse_cons] at hlast
    exact Reads.iterate_last hlast
  | cons i items ih =>
    -- the loop keeps the items so far in reverse order
    have hi := hvalue i (by simp)
    have hnext := ih (j :: before) i (fun k hk => hvalue k (List.mem_cons_of_mem j hk)) hi
    rw [List.reverse_cons, List.append_assoc, List.singleton_append] at hnext
    rw [compactItems, List.append_cons]
    refine Reads.iterate_next (by simp) ?_ hnext
    exact reads_itemStep_next (hj.reads _ (by simp; decide)) ((hi.opens.append _).append rest).stops

theorem reads_readItems {items : List Json} (hvalue : ∀ i ∈ items, ReadsBack value i) :
    ∃ text, compactChars (.array items) = '[' :: text ∧
      ∀ rest, Reads (readItems value) text items rest := by
  cases items with
  | nil =>
    refine ⟨[']'], rfl, fun rest => ?_⟩
    unfold readItems
    refine (reads_blanks (by simp; decide)).bind_peek ?_
    refine (reads_looksLike rest _ ']').bind_peek ?_
    exact (reads_char rest ']').bind_nil (Reads.pure [] rest)
  | cons j items =>
    refine ⟨compactChars j ++ compactItems items, by rw [compactChars], fun rest => ?_⟩
    have hopens := (hvalue j List.mem_cons_self).opens
    have hbracket : Stops (· = ']') (compactChars j ++ compactItems items ++ rest) := by
      obtain ⟨c, text, htext, -, hc⟩ := hopens
      rw [htext, List.cons_append, List.cons_append, stops_cons, decide_eq_false_iff_not]
      exact hc
    unfold readItems
    refine (reads_blanks ((hopens.append _).append rest).stops).bind_peek ?_
    refine (reads_looksLike_false hbracket).bind_peek ?_
    exact reads_items [] j items hvalue

end Items

/-! ### Members -/

section Members

variable {value : Reader Json} {before : OrderedMap Json} {key : String}

/-- A member as far as its value. -/
theorem reads_memberStep {step : OrderedMap Json ⊕ OrderedMap Json} {tail : List Char}
    (hopens : Opens text) (h : Reads value text j (tail ++ rest))
    (hafter : Reads (do
      blanks
      match ← any with
      | ',' =>
        blanks
        pure (.inl (before.insert key j))
      | '\x7d' => pure (.inr (before.insert key j))
      | _ => failure) tail step rest) :
    Reads (memberStep value before) (quote key ++ ':' :: (text ++ tail)) step rest := by
  unfold memberStep
  refine (reads_quote key).bind ?_
  refine (reads_blanks (by simp; decide)).bind_peek ?_
  refine (reads_char _ ':').bind_cons ?_
  refine (reads_blanks ((hopens.append tail).append rest).stops).bind_peek ?_
  exact h.bind hafter

theorem reads_memberStep_last (hopens : Opens text) (h : Reads value text j ('\x7d' :: rest)) :
    Reads (memberStep value before) (quote key ++ ':' :: (text ++ ['\x7d']))
      (.inr (before.insert key j)) rest := by
  refine reads_memberStep hopens h ?_
  refine (reads_blanks (by simp; decide)).bind_peek ?_
  exact (reads_any rest '\x7d').bind_nil (Reads.pure _ rest)

theorem reads_memberStep_next (hopens : Opens text) (h : Reads value text j (',' :: rest))
    (hrest : Stops isBlank rest) :
    Reads (memberStep value before) (quote key ++ ':' :: (text ++ [',']))
      (.inl (before.insert key j)) rest := by
  refine reads_memberStep hopens h ?_
  refine (reads_blanks (by simp; decide)).bind_peek ?_
  refine (reads_any rest ',').bind_nil ?_
  exact (reads_blanks hrest).bind_nil (Reads.pure _ rest)

/-- A key begins with a quote. -/
theorem stops_quote {p : Char → Bool} (hquote : p '"' = false) (key : String)
    (text rest : List Char) : Stops p (quote key ++ text ++ rest) := by
  rw [quote, List.cons_append, List.cons_append, stops_cons]
  exact hquote

theorem insert_of_distinct {members : OrderedMap Json}
    (h : Distinct (before ++ (key, j) :: members)) :
    before.insert key j = before ++ [(key, j)] := by
  refine insert_of_notMem (fun hmem => ?_) j
  rw [Distinct, keys, List.map_append, List.nodup_append] at h
  exact h.2.2 key hmem key (by simp) rfl

/-- The members of an object are read one after the other, each with a new key. -/
theorem reads_members (before : OrderedMap Json) (key : String) (j : Json)
    (members : OrderedMap Json) (hdistinct : Distinct (before ++ (key, j) :: members))
    (hvalue : ∀ e ∈ (key, j) :: members, ReadsBack value e.2) :
    Reads (iterate (memberStep value) before)
      (quote key ++ ':' :: (compactChars j ++ compactMembers members))
      (before ++ (key, j) :: members) rest := by
  induction members generalizing before key j with
  | nil =>
    have hj : ReadsBack value j := hvalue (key, j) List.mem_cons_self
    have hlast : Reads (memberStep value before) (quote key ++ ':' :: (compactChars j ++ ['\x7d']))
        (.inr (before.insert key j)) rest :=
      reads_memberStep_last hj.opens (hj.reads _ (by simp; decide))
    rw [insert_of_distinct hdistinct] at hlast
    exact Reads.iterate_last hlast
  | cons e members ih =>
    obtain ⟨key', j'⟩ := e
    have hj : ReadsBack value j := hvalue (key, j) List.mem_cons_self
    have hdistinct' : Distinct ((before ++ [(key, j)]) ++ (key', j') :: members) := by
      rwa [List.append_assoc, List.singleton_append]
    have hnext := ih (before ++ [(key, j)]) key' j' hdistinct'
      (fun e he => hvalue e (List.mem_cons_of_mem _ he))
    rw [List.append_assoc, List.singleton_append] at hnext
    have htext : quote key ++ ':' :: (compactChars j ++ compactMembers ((key', j') :: members)) =
        (quote key ++ ':' :: (compactChars j ++ [','])) ++
          (quote key' ++ ':' :: (compactChars j' ++ compactMembers members)) := by
      simp [compactMembers]
    rw [htext]
    refine Reads.iterate_next (by simp) ?_ hnext
    have hstep : Reads (memberStep value before) (quote key ++ ':' :: (compactChars j ++ [',']))
        (.inl (before.insert key j))
        ((quote key' ++ ':' :: (compactChars j' ++ compactMembers members)) ++ rest) :=
      reads_memberStep_next hj.opens (hj.reads _ (by simp; decide)) (stops_quote (by decide) _ _ _)
    rwa [insert_of_distinct hdistinct] at hstep

theorem reads_readMembers {members : OrderedMap Json} (hdistinct : members.Distinct)
    (hvalue : ∀ e ∈ members, ReadsBack value e.2) :
    ∃ text, compactChars (.object members) = '\x7b' :: text ∧
      ∀ rest, Reads (readMembers value) text members rest := by
  cases members with
  | nil =>
    refine ⟨['\x7d'], rfl, fun rest => ?_⟩
    unfold readMembers
    refine (reads_blanks (by simp; decide)).bind_peek ?_
    refine (reads_looksLike rest _ '\x7d').bind_peek ?_
    exact (reads_char rest '\x7d').bind_nil (Reads.pure [] rest)
  | cons e members =>
    obtain ⟨key, j⟩ := e
    refine ⟨_, by rw [compactChars], fun rest => ?_⟩
    unfold readMembers
    refine (reads_blanks (stops_quote (by decide) key _ rest)).bind_peek ?_
    refine (reads_looksLike_false (stops_quote (by decide) key _ rest)).bind_peek ?_
    exact reads_members [] key j members hdistinct hvalue

end Members

end Values

/-- **Compact texts read back.** Every value that a text can hold is read back from its text. -/
theorem readsBack {depth : ℕ} {j : Json} (h : Storable depth j) :
    ReadsBack (readExact depth) j := by
  induction h with
  | null =>
    refine ⟨⟨'n', _, rfl, by decide⟩, fun rest _ => reads_readExact _ fun value => ?_⟩
    exact (reads_word rest "null").bind_nil (Reads.pure _ rest)
  | bool b =>
    cases b with
    | true =>
      refine ⟨⟨'t', _, rfl, by decide⟩, fun rest _ => reads_readExact _ fun value => ?_⟩
      exact (reads_word rest "true").bind_nil (Reads.pure _ rest)
    | false =>
      refine ⟨⟨'f', _, rfl, by decide⟩, fun rest _ => reads_readExact _ fun value => ?_⟩
      exact (reads_word rest "false").bind_nil (Reads.pure _ rest)
  | number hn => exact readsBack_number hn _
  | string s =>
    refine ⟨⟨'"', _, rfl, by decide⟩, fun rest _ => reads_readExact _ fun value => ?_⟩
    exact (reads_quote s).bind_nil (Reads.pure _ rest)
  | @array depth items _ ih =>
    -- the items are read with one level less
    obtain ⟨text, htext, hread⟩ := reads_readItems ih
    refine ⟨⟨'[', text, htext, by decide⟩, fun rest _ => ?_⟩
    rw [htext]
    refine (reads_peek (text ++ rest) '[').bind_peek ?_
    exact (reads_char _ '[').bind_cons ((hread rest).bind_nil (Reads.pure _ rest))
  | @object depth members hdistinct _ ih =>
    obtain ⟨text, htext, hread⟩ := reads_readMembers hdistinct ih
    refine ⟨⟨'\x7b', text, htext, by decide⟩, fun rest _ => ?_⟩
    rw [htext]
    refine (reads_peek (text ++ rest) '\x7b').bind_peek ?_
    exact (reads_char _ '\x7b').bind_cons ((hread rest).bind_nil (Reads.pure _ rest))

/-! ### Whole texts -/

theorem Storable.mono {depth depth' : ℕ} {j : Json} (h : Storable depth j) (hle : depth ≤ depth') :
    Storable depth' j := by
  induction h generalizing depth' with
  | null => exact .null
  | bool b => exact .bool b
  | number hn => exact .number hn
  | string s => exact .string s
  | array _ ih =>
    obtain ⟨depth', rfl⟩ : ∃ d, depth' = d + 1 := ⟨depth' - 1, by omega⟩
    exact .array fun j hj => ih j hj (by omega)
  | object hdistinct _ ih =>
    obtain ⟨depth', rfl⟩ : ∃ d, depth' = d + 1 := ⟨depth' - 1, by omega⟩
    exact .object hdistinct fun e he => ih e he (by omega)

theorem length_le_compactItems {j : Json} {items : List Json} (h : j ∈ items) :
    (compactChars j).length ≤ (compactItems items).length := by
  induction items with
  | nil => cases h
  | cons i items ih =>
    rw [compactItems, List.length_cons, List.length_append]
    rcases List.mem_cons.1 h with rfl | h
    · omega
    · have := ih h
      omega

theorem length_le_compactMembers {e : String × Json} {members : List (String × Json)}
    (h : e ∈ members) : (compactChars e.2).length ≤ (compactMembers members).length := by
  induction members with
  | nil => cases h
  | cons f members ih =>
    obtain ⟨key, j⟩ := f
    rw [compactMembers, List.length_cons, List.length_append, List.length_cons, List.length_append]
    rcases List.mem_cons.1 h with rfl | h
    · dsimp only
      omega
    · have := ih h
      omega

/-- A text is longer than the values in it are nested. -/
def Fits (j : Json) : Prop := Storable (compactChars j).length j

theorem fits_array {items : List Json} (h : ∀ j ∈ items, Fits j) : Fits (.array items) := by
  cases items with
  | nil => exact .array (by simp)
  | cons j items =>
    unfold Fits
    rw [compactChars, List.length_cons, List.length_append]
    refine .array fun i hi => (h i hi).mono ?_
    rcases List.mem_cons.1 hi with rfl | hi
    · omega
    · have := length_le_compactItems hi
      omega

theorem fits_object {members : OrderedMap Json} (hdistinct : members.Distinct)
    (h : ∀ e ∈ members, Fits e.2) : Fits (.object members) := by
  cases members with
  | nil => exact .object hdistinct (by simp)
  | cons e members =>
    obtain ⟨key, j⟩ := e
    unfold Fits
    rw [compactChars, List.length_cons, List.length_append, List.length_cons, List.length_append]
    refine .object hdistinct fun f hf => (h f hf).mono ?_
    rcases List.mem_cons.1 hf with rfl | hf
    · dsimp only
      omega
    · have := length_le_compactMembers hf
      omega

/-- The value of a JSON text, with every number rounded once and no bound on the nesting. -/
def parseExact? (text : String) : Option Json :=
  parseWith? (fun numeral => some numeral.nearest) text.length text

/-- A value is found again in its compact text. -/
theorem parseExact?_compact {j : Json} (h : Fits j) : parseExact? (compact j) = some j := by
  have hback := readsBack h
  have hread : Reads (do blanks; let j ← readExact (compactChars j).length; blanks; pure j)
      (compactChars j) j [] := by
    have hopens : Stops isBlank (compactChars j ++ []) := (hback.opens.append []).stops
    refine (reads_blanks hopens).bind_peek ?_
    refine (hback.reads [] (stops_nil _)).bind_nil ?_
    exact (reads_blanks (stops_nil _)).bind_nil (Reads.pure j [])
  unfold parseExact? parseWith? compact
  rw [String.length_ofList, String.toList_ofList]
  exact hread.readAll_eq

end ConfigAudit.Json
