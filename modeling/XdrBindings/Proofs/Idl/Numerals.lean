import XdrBindings.Proofs.Idl.Rendering

/-!
# Numbers are exact or refused

A number is written with as many digits as one likes, in base ten or in base sixteen, with zeros in
front of it and with a minus sign.  Its digits are taken in as a word of 64 bits, the sign is put to
it in 128 bits, and the outcome has to be one of 64 bits again.  None of the three steps loses
anything up to the two limits: a number from -2⁶³ to 2⁶³ - 1 is read as what its digits mean, and
every other one is refused with all that is written.

What digits mean is said without the reader: the place of a digit among the digits of base sixteen,
times the power of the base that belongs to its place.

## Main results

* `ofDigits_eq_placeValue` — the reader's number of a run of digits is what the digits mean.
* `WritesDigits.tokenize_eq` — a number alone is read as its token, or its fault is the outcome.
* `tokenize_number` — a number alone is exact or refused.
-/

namespace XdrBindings.Idl

/-! ## What digits mean -/

/-- The place of a digit among the digits of base sixteen, in either case. -/
def digitRank (c : Char) : Nat := "0123456789abcdef".toList.idxOf c.toLower

/-- The number that digits mean in a base, the most significant digit first. -/
def placeValue (base : Nat) (digits : Text) : Nat :=
  Nat.ofDigits base (digits.reverse.map digitRank)

theorem isHexDigit_of_isDigit {c : Char} (h : c.isDigit = true) : isHexDigit c = true := by
  simp [isHexDigit, h]

theorem toNat_lt_of_isHexDigit {c : Char} (h : isHexDigit c = true) : c.toNat < 128 := by
  have hVal : c.val.toNat = c.toNat := rfl
  simp only [isHexDigit, Char.isDigit, Bool.or_eq_true, Bool.and_eq_true, decide_eq_true_eq,
    ge_iff_le, Char.le_def, UInt32.le_iff_toNat_le] at h
  rcases h with (⟨-, hLast⟩ | ⟨-, hLast⟩) | ⟨-, hLast⟩
  all_goals
    simp at hLast
    omega

theorem digitValue_eq_digitRank {c : Char} (h : isHexDigit c = true) :
    digitValue c = digitRank c := by
  have hAscii : ∀ code < 128, isHexDigit (Char.ofNat code) = true →
      digitValue (Char.ofNat code) = digitRank (Char.ofNat code) := by
    decide +kernel
  have hRank := hAscii c.toNat (toNat_lt_of_isHexDigit h)
  rw [Char.ofNat_toNat] at hRank
  exact hRank h

/-- The number that is read from digits is the one that they mean. -/
theorem ofDigits_eq_placeValue (base : Nat) {digits : Text}
    (h : ∀ c ∈ digits, isHexDigit c = true) : ofDigits base digits = placeValue base digits := by
  have hRanks : digits.reverse.map digitValue = digits.reverse.map digitRank :=
    List.map_congr_left fun c hc => digitValue_eq_digitRank (h c (List.mem_reverse.mp hc))
  rw [placeValue, ← hRanks, Nat.ofDigits_eq_foldr, List.foldr_map, List.foldr_reverse]
  refine List.foldl_ext _ _ _ fun value c _ => ?_
  simp [Nat.mul_comm, Nat.add_comm]

/-! ## A token alone -/

/-- The tokens of a line of ASCII characters that is one token. -/
def soleToken (text : Text) (kind : TokenKind) : List Token :=
  [⟨kind, text, ⟨1, 1⟩, ⟨0, text.length⟩⟩,
    ⟨.finish, [], ⟨1, 1 + text.length⟩, ⟨text.length, text.length⟩⟩]

/-- Whether a character is one byte long and stays on its line. -/
def IsNarrow (c : Char) : Prop := c.toNat < 128 ∧ c ≠ '\n'

instance (c : Char) : Decidable (IsNarrow c) := inferInstanceAs (Decidable (_ ∧ _))

theorem IsNarrow.of_isHexDigit {c : Char} (h : isHexDigit c = true) : IsNarrow c := by
  refine ⟨toNat_lt_of_isHexDigit h, ?_⟩
  rintro rfl
  cases h

theorem Cursor.advance_narrow {text : Text} (h : ∀ c ∈ text, IsNarrow c) (cursor : Cursor) :
    (cursor.advance text).position =
        ⟨cursor.position.line, cursor.position.column + text.length⟩ ∧
      (cursor.advance text).offset = cursor.offset + text.length := by
  induction text generalizing cursor with
  | nil => exact ⟨rfl, rfl⟩
  | cons c rest ih =>
    obtain ⟨hAscii, hNewline⟩ := h c List.mem_cons_self
    have hSize : c.utf8Size = 1 := by
      rw [Char.utf8Size_eq_one_iff, UInt32.le_iff_toNat_le]
      exact Nat.le_of_lt_succ hAscii
    obtain ⟨hPosition, hOffset⟩ :=
      ih (fun d hd => h d (List.mem_cons_of_mem c hd)) (cursor.step c)
    have hAdvance : cursor.advance (c :: rest) = (cursor.step c).advance rest := rfl
    rw [hAdvance, hPosition, hOffset]
    constructor
    · simp [Cursor.step, hNewline]
      omega
    · simp [Cursor.step, hSize]
      omega

/-- A text that is one token from its first character to its last has that token alone. -/
theorem tokenize_of_lexemeAt {first : Char} {rest : Text}
    (hBegins : isSpace first = false ∧ first ≠ '/' ∧ first ≠ '%')
    (hNarrow : ∀ c ∈ first :: rest, IsNarrow c) {kind : Except LexicalCause TokenKind}
    (hLexeme : lexemeAt first rest = kind.map fun kind => (kind, first :: rest)) :
    tokenize (first :: rest) =
      (kind.map (soleToken (first :: rest))).mapError fun cause => ⟨⟨1, 1⟩, cause⟩ := by
  obtain ⟨hSpace, hSlash, hPercent⟩ := hBegins
  have hSkip : skipGap .space .start (first :: rest) = .ok (.start, first :: rest) := by
    simp [skipGap, hSpace, hSlash, hPercent]
  rw [tokenize, itemsOf, items_eq, hSkip]
  dsimp only
  rw [hLexeme]
  cases kind with
  | error cause => rfl
  | ok kind =>
    obtain ⟨hPosition, hOffset⟩ := Cursor.advance_narrow hNarrow .start
    dsimp only [Except.map]
    rw [List.tail_cons, List.drop_length, items_nil, hPosition, hOffset]
    have hItems : ((soleToken (first :: rest) kind).map Except.ok).mapM id =
        (Except.ok (soleToken (first :: rest) kind) : Except LexicalFault (List Token)) :=
      mapM_id_map_ok _
    simpa [soleToken, Cursor.start, Except.mapError, Except.map] using hItems

/-! ## A number alone -/

/-- `WritesDigits base mark digits` says that digits of the base are written behind its mark: digits
of base ten behind nothing, and digits of base sixteen behind a zero and the letter of the base. -/
inductive WritesDigits : (base : Nat) → (mark digits : Text) → Prop
  | decimal {digits : Text} (hSome : digits ≠ []) (hAll : ∀ c ∈ digits, c.isDigit = true) :
    WritesDigits 10 [] digits
  | hexadecimal {letter : Char} {digits : Text} (hLetter : letter = 'x' ∨ letter = 'X')
      (hSome : digits ≠ []) (hAll : ∀ c ∈ digits, isHexDigit c = true) :
    WritesDigits 16 ['0', letter] digits

namespace WritesDigits

variable {base : Nat} {mark digits : Text}

theorem isHexDigit_of_mem (h : WritesDigits base mark digits) :
    ∀ c ∈ digits, isHexDigit c = true := by
  cases h with
  | decimal _ hAll => exact fun c hc => isHexDigit_of_isDigit (hAll c hc)
  | hexadecimal _ _ hAll => exact hAll

/-- A numeral begins with a digit, its sign left aside. -/
theorem exists_cons (h : WritesDigits base mark digits) :
    ∃ digit rest, mark ++ digits = digit :: rest ∧ digit.isDigit = true := by
  cases h with
  | decimal hSome hAll =>
    obtain ⟨digit, rest, rfl⟩ := List.exists_cons_of_ne_nil hSome
    exact ⟨digit, rest, rfl, hAll digit List.mem_cons_self⟩
  | hexadecimal => exact ⟨'0', _, rfl, rfl⟩

theorem ofText_literal (h : WritesDigits base mark digits) (negative : Bool) :
    Numeral.ofText (signText negative ++ (mark ++ digits)) =
      ⟨signText negative, mark, digits⟩ := by
  have hEnd : EndsWord [] := by
    rintro c ⟨⟩
  cases h with
  | decimal hSome hAll => simpa using Numeral.ofText_digits negative hSome hAll hEnd
  | hexadecimal hLetter _ hAll =>
    simpa using Numeral.ofText_hexadecimal negative (by rcases hLetter with rfl | rfl <;> rfl)
      hAll hEnd

theorem isNarrow_of_mem (h : WritesDigits base mark digits) (negative : Bool) :
    ∀ c ∈ signText negative ++ (mark ++ digits), IsNarrow c := by
  have hSign : ∀ c ∈ signText negative, IsNarrow c := by cases negative <;> decide
  have hMark : ∀ c ∈ mark, IsNarrow c := by
    cases h with
    | decimal => decide
    | hexadecimal hLetter => rcases hLetter with rfl | rfl <;> decide
  intro c hc
  rcases List.mem_append.mp hc with hc | hc
  · exact hSign c hc
  · rcases List.mem_append.mp hc with hc | hc
    · exact hMark c hc
    · exact .of_isHexDigit (h.isHexDigit_of_mem c hc)

/-- The kind of a numeral with digits: its number, if that fits. -/
theorem kind_eq (h : WritesDigits base mark digits) (negative : Bool) :
    Numeral.kind ⟨signText negative, mark, digits⟩ =
      if fitsWord (signed negative (placeValue base digits)) then
        .ok (.number (signed negative (placeValue base digits)))
      else .error (.integerOutOfRange (signText negative ++ (mark ++ digits))) := by
  have hSome : digits ≠ [] := by cases h <;> assumption
  have hBase : (if mark.isEmpty then 10 else 16) = base := by cases h <;> rfl
  rw [Numeral.kind_eq, Numeral.value_signed, hBase,
    ofDigits_eq_placeValue base h.isHexDigit_of_mem]
  simp [Numeral.literal, hSome]

/-- A number alone is read as its token, or its fault is the outcome. -/
theorem tokenize_eq (h : WritesDigits base mark digits) (negative : Bool) :
    tokenize (signText negative ++ (mark ++ digits)) =
      ((Numeral.kind ⟨signText negative, mark, digits⟩).map
        (soleToken (signText negative ++ (mark ++ digits)))).mapError
          fun cause => ⟨⟨1, 1⟩, cause⟩ := by
  obtain ⟨digit, others, hCons, hDigit⟩ := h.exists_cons
  have hNarrow := h.isNarrow_of_mem negative
  have hNumeral := h.ofText_literal negative
  have hLiteral : Numeral.literal ⟨signText negative, mark, digits⟩ =
      signText negative ++ (mark ++ digits) := List.append_assoc ..
  rw [hCons] at hNarrow hNumeral hLiteral ⊢
  cases negative with
  | true =>
    have hStarts : startsNumber ('-' :: digit :: others) = true := hDigit
    have hLexeme := lexemeAt_numeral rfl hStarts hNumeral
    rw [hLiteral] at hLexeme
    exact tokenize_of_lexemeAt (by decide) hNarrow hLexeme
  | false =>
    have hLexeme := lexemeAt_numeral (not_begins_of_isDigit hDigit)
      (startsNumber_of_isDigit hDigit others) hNumeral
    rw [hLiteral] at hLexeme
    exact tokenize_of_lexemeAt (begins_of_isWordChar (isWordChar_of_isDigit hDigit)) hNarrow
      hLexeme

end WritesDigits

/-- A number alone is exact or refused: as many digits as one likes, of base ten or of base sixteen,
with or without a minus sign, are read as one token with the number that they mean if that is
between the limits of 64 bits, and otherwise refused as a whole. -/
theorem tokenize_number (negative : Bool) {base : Nat} {mark digits : Text}
    (h : WritesDigits base mark digits) :
    let literal := signText negative ++ (mark ++ digits)
    let value := signed negative (placeValue base digits)
    tokenize literal =
      if -2 ^ 63 ≤ value ∧ value ≤ 2 ^ 63 - 1 then .ok (soleToken literal (.number value))
      else .error ⟨⟨1, 1⟩, .integerOutOfRange literal⟩ := by
  intro literal value
  rw [h.tokenize_eq, h.kind_eq]
  by_cases hRange : -2 ^ 63 ≤ value ∧ value ≤ 2 ^ 63 - 1
  · have hFits : fitsWord value = true := fitsWord_iff.mpr hRange
    rw [if_pos hFits, if_pos hRange]
    rfl
  · have hFits : ¬fitsWord value = true := fun hFits => hRange (fitsWord_iff.mp hFits)
    rw [if_neg hFits, if_neg hRange]
    rfl

theorem tokenize_limits :
    (WritesDigits 16 ['0', 'X'] "0008000000000000000".toList ∧
      tokenize "-0X0008000000000000000".toList =
        .ok (soleToken "-0X0008000000000000000".toList (.number (-9223372036854775808)))) ∧
    (WritesDigits 10 [] "9223372036854775808".toList ∧
      tokenize "9223372036854775808".toList =
        .error ⟨⟨1, 1⟩, .integerOutOfRange "9223372036854775808".toList⟩) := by
  have hLowest : WritesDigits 16 ['0', 'X'] "0008000000000000000".toList :=
    .hexadecimal (.inr rfl) (by decide +kernel) (by decide +kernel)
  have hAbove : WritesDigits 10 [] "9223372036854775808".toList :=
    .decimal (by decide +kernel) (by decide +kernel)
  have hLowestValue : placeValue 16 "0008000000000000000".toList = 9223372036854775808 := by
    decide +kernel
  have hAboveValue : placeValue 10 "9223372036854775808".toList = 9223372036854775808 := by
    decide +kernel
  have hRead := tokenize_number true hLowest
  have hRefused := tokenize_number false hAbove
  rw [hLowestValue] at hRead
  rw [hAboveValue] at hRefused
  exact ⟨⟨hLowest, by simpa [signed, signText] using hRead⟩,
    ⟨hAbove, by simpa [signed, signText] using hRefused⟩⟩

end XdrBindings.Idl
