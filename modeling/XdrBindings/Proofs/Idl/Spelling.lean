import Mathlib
import XdrBindings.Idl.Lexeme
import XdrBindings.Proofs.Outcome
import XdrBindings.Proofs.Text.Trim

/-!
# Writing tokens

Every kind of token but the end mark has a spelling, and the spelling is read as that kind wherever
no character of a word follows.  A number is written in base ten.  So tokens can be written one
behind the other with a space between them, and reading such a text gives them back, all on one
line.

## Main results

* `Numeral.ofText_digits` — a sign and digits are read as a numeral, up to the end of the digits.
* `exists_lexes` — the spelling of a token is read as the token.
* `tokenize_written` — written tokens are read as they are, and the end mark behind them.
-/

namespace XdrBindings.Idl

/-! ## Spellings -/

/-- Whether a name is a word of the language that is not reserved. -/
def isIdentifier (name : String) : Bool :=
  match name.toList with
  | [] => false
  | first :: rest =>
    (first.isAlpha || first == '_') && rest.all isWordChar && (Keyword.ofWord? name).isNone

theorem isIdentifier_iff {name : String} : isIdentifier name = true ↔
    ∃ first rest, name.toList = first :: rest ∧ (first.isAlpha || first == '_') = true ∧
      (∀ c ∈ rest, isWordChar c = true) ∧ Keyword.ofWord? name = none := by
  unfold isIdentifier
  cases hName : name.toList with
  | nil => simp
  | cons first rest => simp [and_assoc]

/-- A number in base ten. -/
def decimal (value : Int) : Text :=
  if value < 0 then '-' :: Nat.toDigits 10 value.natAbs else Nat.toDigits 10 value.natAbs

namespace TokenKind

/-- How a token is written.  The end mark is not. -/
def spelling : TokenKind → Text
  | .keyword word => word.spelling.toList
  | .identifier name => name.toList
  | .number value => decimal value
  | .symbol mark => [mark.char]
  | .finish => []

/-- Whether a token can be written. -/
def isWritable : TokenKind → Bool
  | .keyword _ => true
  | .identifier name => isIdentifier name
  | .number value => fitsWord value
  | .symbol _ => true
  | .finish => false

@[simp]
theorem isWritable_keyword (word : Keyword) : (keyword word).isWritable = true := rfl

@[simp]
theorem isWritable_identifier (name : String) :
    (identifier name).isWritable = isIdentifier name := rfl

@[simp]
theorem isWritable_number (value : Int) : (number value).isWritable = fitsWord value := rfl

@[simp]
theorem isWritable_symbol (mark : Symbol) : (symbol mark).isWritable = true := rfl

end TokenKind

/-- Tokens one behind the other with a space between them. -/
def written (kinds : List TokenKind) : Text := Text.join [' '] (kinds.map TokenKind.spelling)

@[simp]
theorem written_singleton (kind : TokenKind) : written [kind] = kind.spelling := by
  simp [written, Text.join, List.intercalate]

theorem written_cons_cons (kind next : TokenKind) (kinds : List TokenKind) :
    written (kind :: next :: kinds) = kind.spelling ++ ' ' :: written (next :: kinds) := by
  simp [written, Text.join, List.intercalate]

/-! ## Reading a spelling -/

/-- Whether no character of a word follows. -/
def EndsWord (back : Text) : Prop := ∀ c ∈ back.head?, isWordChar c = false

/-- `Lexes first rest kind` says that the text of `first` and `rest` is read as a token of the kind
wherever it stands with no character of a word behind it. -/
structure Lexes (first : Char) (rest : Text) (kind : TokenKind) : Prop where
  begins : isSpace first = false ∧ first ≠ '/' ∧ first ≠ '%'
  newline_not_mem : '\n' ∉ first :: rest
  lexeme : ∀ back, EndsWord back → lexemeAt first (rest ++ back) = .ok (kind, first :: rest)

/-! ### Words -/

theorem isWordChar_of_begins {c : Char} (h : (c.isAlpha || c == '_') = true) :
    isWordChar c = true := by
  simp only [Bool.or_eq_true, beq_iff_eq] at h
  rcases h with hAlpha | rfl
  · simp [isWordChar, Char.isAlphanum, hAlpha]
  · rfl

theorem begins_of_isWordChar {c : Char} (h : isWordChar c = true) :
    isSpace c = false ∧ c ≠ '/' ∧ c ≠ '%' := by
  have hNe {d : Char} (hd : isWordChar d = false) : c ≠ d := by
    rintro rfl
    rw [h] at hd
    cases hd
  refine ⟨?_, hNe rfl, hNe rfl⟩
  have hSpace : c ≠ ' ' ∧ c ≠ '\t' ∧ c ≠ '\n' ∧ c ≠ '\x0c' ∧ c ≠ '\r' :=
    ⟨hNe rfl, hNe rfl, hNe rfl, hNe rfl, hNe rfl⟩
  simp [isSpace, hSpace]

theorem newline_not_mem_of_isWordChar {text : Text} (h : ∀ c ∈ text, isWordChar c = true) :
    '\n' ∉ text := fun hMem => by
  have hNewline := h '\n' hMem
  cases hNewline

theorem lexes_word {first : Char} {rest : Text} (hFirst : (first.isAlpha || first == '_') = true)
    (hRest : ∀ c ∈ rest, isWordChar c = true) : Lexes first rest (wordKind (first :: rest)) where
  begins := begins_of_isWordChar (isWordChar_of_begins hFirst)
  newline_not_mem := newline_not_mem_of_isWordChar fun c hc => by
    rcases List.mem_cons.mp hc with rfl | hMem
    · exact isWordChar_of_begins hFirst
    · exact hRest c hMem
  lexeme back hBack := by
    rw [lexemeAt, if_pos hFirst, Text.takeWhile_append_of_head hRest hBack]

/-! ### Numbers -/

theorem isWordChar_of_isDigit {c : Char} (h : c.isDigit = true) : isWordChar c = true := by
  simp [isWordChar, Char.isAlphanum, h]

theorem not_begins_of_isDigit {c : Char} (h : c.isDigit = true) :
    (c.isAlpha || c == '_') = false := by
  have hUnderscore : c ≠ '_' := by
    rintro rfl
    cases h
  have hAlpha : c.isAlpha = false := by
    cases hBegins : c.isAlpha with
    | false => rfl
    | true =>
      exfalso
      simp only [Char.isAlpha, Char.isUpper, Char.isLower, Char.isDigit, Bool.or_eq_true,
        Bool.and_eq_true, decide_eq_true_eq, ge_iff_le, UInt32.le_iff_toNat_le] at h hBegins
      simp at h hBegins
      omega
  simp [hAlpha, hUnderscore]

theorem startsNumber_of_isDigit {c : Char} (h : c.isDigit = true) (rest : Text) :
    startsNumber (c :: rest) = true := by
  unfold startsNumber
  split
  · rename_i hCons
    obtain ⟨rfl, -⟩ := List.cons.inj hCons
    cases h
  · rename_i hCons
    obtain ⟨rfl, -⟩ := List.cons.inj hCons
    exact h
  · rename_i hNil
    cases hNil

theorem hexMarkOf_eq_nil {text : Text} (h : ∀ c ∈ text.tail.head?, c ≠ 'x' ∧ c ≠ 'X') :
    hexMarkOf text = [] := by
  unfold hexMarkOf
  split
  · exact absurd rfl (h 'x' rfl).1
  · exact absurd rfl (h 'X' rfl).2
  · rfl

/-- The sign of a number. -/
def signText (negative : Bool) : Text := if negative then ['-'] else []

/-- A number with a sign in front of its magnitude. -/
def signed (negative : Bool) (magnitude : Nat) : Int :=
  if negative then -(magnitude : Int) else magnitude

theorem signed_natAbs (value : Int) : signed (decide (value < 0)) value.natAbs = value := by
  unfold signed
  by_cases hNegative : value < 0
  · rw [if_pos (decide_eq_true hNegative)]
    omega
  · rw [if_neg (by simpa using hNegative)]
    omega

theorem Numeral.value_signed (negative : Bool) (mark digits : Text) :
    Numeral.value ⟨signText negative, mark, digits⟩ =
      signed negative (ofDigits (if mark.isEmpty then 10 else 16) digits) := by
  cases negative <;> rfl

theorem signOf_signText (negative : Bool) {digit : Char} (hDigit : digit.isDigit = true)
    (rest : Text) : signOf (signText negative ++ digit :: rest) = signText negative := by
  cases negative with
  | true => rfl
  | false =>
    have hMinus : digit ≠ '-' := by
      rintro rfl
      cases hDigit
    simp [signText, signOf, hMinus]

/-- A sign and digits are read up to the end of the digits. -/
theorem Numeral.ofText_digits (negative : Bool) {digits back : Text} (hDigits : digits ≠ [])
    (hAll : ∀ c ∈ digits, c.isDigit = true) (hBack : EndsWord back) :
    Numeral.ofText (signText negative ++ (digits ++ back)) = ⟨signText negative, [], digits⟩ := by
  obtain ⟨first, rest, rfl⟩ := List.exists_cons_of_ne_nil hDigits
  have hSign : signOf (signText negative ++ (first :: rest ++ back)) = signText negative :=
    signOf_signText negative (hAll first List.mem_cons_self) (rest ++ back)
  have hMark : hexMarkOf (first :: rest ++ back) = [] := by
    refine hexMarkOf_eq_nil fun c hc => ?_
    have hWord : c.isDigit = true ∨ isWordChar c = false := by
      cases rest with
      | nil => exact .inr (hBack c hc)
      | cons second others => exact .inl (hAll c (by cases hc; simp))
    constructor
    · rintro rfl
      rcases hWord with h | h <;> cases h
    · rintro rfl
      rcases hWord with h | h <;> cases h
  have hTake : (first :: rest ++ back).takeWhile Char.isDigit = first :: rest := by
    refine Text.takeWhile_append_of_head hAll fun c hc => ?_
    cases hDigit : c.isDigit with
    | false => rfl
    | true =>
      have hWord := isWordChar_of_isDigit hDigit
      rw [hBack c hc] at hWord
      cases hWord
  unfold Numeral.ofText
  dsimp only
  rw [hSign, List.drop_left, hMark]
  exact congrArg (Numeral.mk (signText negative) []) hTake

/-- Where a number begins, its numeral is read. -/
theorem lexemeAt_numeral {first : Char} {rest : Text} {numeral : Numeral}
    (hFirst : (first.isAlpha || first == '_') = false)
    (hStarts : startsNumber (first :: rest) = true)
    (hNumeral : Numeral.ofText (first :: rest) = numeral) :
    lexemeAt first rest = numeral.kind.map fun kind => (kind, numeral.literal) := by
  rw [lexemeAt, if_neg (by rw [hFirst]; decide), if_pos hStarts]
  dsimp only
  rw [hNumeral]

/-- A sign and a numeral are read as the number of the numeral, if nothing but the end of a word
ends it. -/
theorem exists_lexes_numeral {negative : Bool} {digit : Char} {others mark digits : Text}
    {kind : TokenKind} (hDigit : digit.isDigit = true)
    (hWord : ∀ c ∈ digit :: others, isWordChar c = true) (hParts : mark ++ digits = digit :: others)
    (hNumeral : ∀ back, EndsWord back →
      Numeral.ofText (signText negative ++ (digit :: others ++ back)) =
        ⟨signText negative, mark, digits⟩)
    (hKind : Numeral.kind ⟨signText negative, mark, digits⟩ = .ok kind) :
    ∃ first rest, signText negative ++ digit :: others = first :: rest ∧
      Lexes first rest kind := by
  have hLiteral : Numeral.literal ⟨signText negative, mark, digits⟩ =
      signText negative ++ digit :: others := by
    rw [Numeral.literal, List.append_assoc, hParts]
  have hNewline : '\n' ∉ digit :: others := newline_not_mem_of_isWordChar hWord
  cases negative with
  | true =>
    refine ⟨'-', digit :: others, rfl, ⟨by decide, by decide, by decide⟩, ?_, fun back hBack => ?_⟩
    · simpa using hNewline
    · have hStarts : startsNumber ('-' :: (digit :: others ++ back)) = true := hDigit
      have hLexeme := lexemeAt_numeral rfl hStarts (hNumeral back hBack)
      rw [hKind, hLiteral] at hLexeme
      exact hLexeme
  | false =>
    refine ⟨digit, others, rfl, begins_of_isWordChar (hWord digit List.mem_cons_self), hNewline,
      fun back hBack => ?_⟩
    have hLexeme := lexemeAt_numeral (not_begins_of_isDigit hDigit)
      (startsNumber_of_isDigit hDigit _) (hNumeral back hBack)
    rw [hKind, hLiteral] at hLexeme
    exact hLexeme

/-- A sign and digits are read as their number. -/
theorem exists_lexes_digits (negative : Bool) {digits : Text} (hDigits : digits ≠ [])
    (hAll : ∀ c ∈ digits, c.isDigit = true)
    (hFits : fitsWord (signed negative (ofDigits 10 digits)) = true) :
    ∃ first rest, signText negative ++ digits = first :: rest ∧
      Lexes first rest (.number (signed negative (ofDigits 10 digits))) := by
  have hKind : Numeral.kind ⟨signText negative, [], digits⟩ =
      .ok (.number (signed negative (ofDigits 10 digits))) := by
    have hValue := Numeral.value_signed negative [] digits
    rw [List.isEmpty_nil, if_pos rfl] at hValue
    rw [Numeral.kind_eq, hValue, hFits]
    rfl
  obtain ⟨digit, others, rfl⟩ := List.exists_cons_of_ne_nil hDigits
  exact exists_lexes_numeral (hAll digit List.mem_cons_self)
    (fun c hc => isWordChar_of_isDigit (hAll c hc)) (List.nil_append _)
    (fun back hBack => Numeral.ofText_digits negative hDigits hAll hBack) hKind

theorem digitValue_digitChar {digit : Nat} (h : digit < 16) :
    digitValue digit.digitChar = digit := by
  decide +revert

/-- The digits of a number mean the number, in each base up to sixteen. -/
theorem ofDigits_toDigits {base : Nat} (hBase : 1 < base) (hLe : base ≤ 16) (value : Nat) :
    ofDigits base (Nat.toDigits base value) = value := by
  induction value using Nat.strong_induction_on with
  | _ value ih =>
    rw [Nat.toDigits_eq_if hBase]
    split
    · rename_i hLess
      simpa [ofDigits] using digitValue_digitChar (hLess.trans_le hLe)
    · rename_i hLess
      have hSmaller : value / base < value := Nat.div_lt_self (by omega) hBase
      have hDigit : value % base < 16 := (Nat.mod_lt value (by omega)).trans_le hLe
      have hFront := ih (value / base) hSmaller
      rw [ofDigits] at hFront
      rw [ofDigits, List.foldl_append, hFront, List.foldl_cons, List.foldl_nil,
        digitValue_digitChar hDigit]
      exact Nat.div_add_mod' value base

theorem decimal_eq (value : Int) :
    decimal value = signText (decide (value < 0)) ++ Nat.toDigits 10 value.natAbs := by
  unfold decimal signText
  by_cases hNegative : value < 0 <;> simp [hNegative]

theorem exists_lexes_decimal {value : Int} (hFits : fitsWord value = true) :
    ∃ first rest, decimal value = first :: rest ∧ Lexes first rest (.number value) := by
  have hValue : signed (decide (value < 0)) (ofDigits 10 (Nat.toDigits 10 value.natAbs)) =
      value := by
    rw [ofDigits_toDigits (by decide) (by decide), signed_natAbs]
  have hLexes := exists_lexes_digits (decide (value < 0)) Nat.toDigits_ne_nil
    (fun c hc => Nat.isDigit_of_mem_toDigits (by decide) (by decide) hc) (hValue.symm ▸ hFits)
  rwa [hValue, ← decimal_eq] at hLexes

/-! ### All tokens -/

theorem lexes_symbol (mark : Symbol) : Lexes mark.char [] (.symbol mark) where
  begins := by cases mark <;> decide
  newline_not_mem := by cases mark <;> decide
  lexeme back _ := by cases mark <;> rfl

theorem exists_lexes_keyword (word : Keyword) :
    ∃ first rest, word.spelling.toList = first :: rest ∧ Lexes first rest (.keyword word) := by
  have hKind : wordKind word.spelling.toList = .keyword word := by
    rw [wordKind, String.ofList_toList, Keyword.ofWord?_spelling]
  have hParts : ∃ first rest, word.spelling.toList = first :: rest ∧
      (first.isAlpha || first == '_') = true ∧ ∀ c ∈ rest, isWordChar c = true := by
    cases word <;> exact ⟨_, _, rfl, rfl, List.all_eq_true.mp rfl⟩
  obtain ⟨first, rest, hSpelling, hFirst, hRest⟩ := hParts
  rw [hSpelling] at hKind
  exact ⟨first, rest, hSpelling, hKind ▸ lexes_word hFirst hRest⟩

theorem exists_lexes_identifier {name : String} (h : isIdentifier name = true) :
    ∃ first rest, name.toList = first :: rest ∧ Lexes first rest (.identifier name) := by
  obtain ⟨first, rest, hName, hFirst, hRest, hFree⟩ := isIdentifier_iff.mp h
  have hKind : wordKind (first :: rest) = .identifier name := by
    rw [← hName, wordKind, String.ofList_toList, hFree]
  exact ⟨first, rest, hName, hKind ▸ lexes_word hFirst hRest⟩

/-- What can be written is read again. -/
theorem exists_lexes {kind : TokenKind} (h : kind.isWritable = true) :
    ∃ first rest, kind.spelling = first :: rest ∧ Lexes first rest kind := by
  cases kind with
  | keyword word => exact exists_lexes_keyword word
  | identifier name => exact exists_lexes_identifier h
  | number value => exact exists_lexes_decimal h
  | symbol mark => exact ⟨mark.char, [], rfl, lexes_symbol mark⟩
  | finish => cases h

/-! ## Reading what is written -/

theorem items_eq (cursor : Cursor) (text : Text) :
    items cursor text =
      match skipGap .space cursor text with
      | .error fault => [.error fault]
      | .ok (place, []) => [.ok ⟨.finish, [], place.position, ⟨place.offset, place.offset⟩⟩]
      | .ok (place, c :: rest) =>
        match lexemeAt c rest with
        | .error cause => [.error ⟨place.position, cause⟩]
        | .ok (kind, lexeme) =>
          .ok ⟨kind, lexeme, place.position, ⟨place.offset, (place.advance lexeme).offset⟩⟩ ::
            items (place.advance lexeme) (rest.drop lexeme.tail.length) := by
  rw [items]
  split
  next hSkip => simp only [hSkip]
  next hSkip => simp only [hSkip]
  next c rest hSkip => cases hLexeme : lexemeAt c rest <;> simp only [hSkip, hLexeme]

theorem items_nil (cursor : Cursor) :
    items cursor [] = [.ok ⟨.finish, [], cursor.position, ⟨cursor.offset, cursor.offset⟩⟩] :=
  items_eq cursor []

/-- A space is passed over. -/
theorem items_space (cursor : Cursor) (text : Text) :
    items cursor (' ' :: text) = items (cursor.step ' ') text := by
  rw [items_eq cursor, items_eq (cursor.step ' ')]
  rfl

/-- A token is read, and reading goes on behind it. -/
theorem items_lexeme {first : Char} {rest back : Text} {kind : TokenKind}
    (h : Lexes first rest kind) (cursor : Cursor) (hBack : EndsWord back) :
    ∃ span, items cursor (first :: (rest ++ back)) =
      .ok ⟨kind, first :: rest, cursor.position, span⟩ ::
        items (cursor.advance (first :: rest)) back := by
  obtain ⟨hSpace, hSlash, hPercent⟩ := h.begins
  have hSkip : skipGap .space cursor (first :: (rest ++ back)) =
      .ok (cursor, first :: (rest ++ back)) := by
    simp [skipGap, hSpace, hSlash, hPercent]
  refine ⟨⟨cursor.offset, (cursor.advance (first :: rest)).offset⟩, ?_⟩
  rw [items_eq, hSkip]
  dsimp only
  rw [h.lexeme back hBack]
  dsimp only
  rw [List.tail_cons, List.drop_left]

theorem Cursor.line_advance {text : Text} (h : '\n' ∉ text) (cursor : Cursor) :
    (cursor.advance text).position.line = cursor.position.line := by
  induction text generalizing cursor with
  | nil => rfl
  | cons c rest ih =>
    have hc : c ≠ '\n' := by
      rintro rfl
      exact h List.mem_cons_self
    show ((cursor.step c).advance rest).position.line = _
    rw [ih (fun hMem => h (List.mem_cons_of_mem _ hMem)), Cursor.step]
    simp only [hc, if_false]

/-- Written tokens are read one after the other, on the line that the reader is on. -/
theorem items_written {kinds : List TokenKind} (h : ∀ kind ∈ kinds, kind.isWritable = true)
    (cursor : Cursor) :
    ∃ tokens last, items cursor (written kinds) = (tokens ++ [last]).map .ok ∧
      tokens.map Token.kind = kinds ∧
      (∀ token ∈ tokens, token.position.line = cursor.position.line) ∧ last.kind = .finish := by
  induction kinds generalizing cursor with
  | nil => exact ⟨[], _, items_nil cursor, rfl, by simp, rfl⟩
  | cons kind rest ih =>
    obtain ⟨first, others, hSpelling, hLexes⟩ := exists_lexes (h kind List.mem_cons_self)
    have hRest := ih fun other hOther => h other (List.mem_cons_of_mem _ hOther)
    -- the place behind the token
    have hLine := Cursor.line_advance hLexes.newline_not_mem cursor
    have hTail : ∃ back, written (kind :: rest) = first :: (others ++ back) ∧ EndsWord back ∧
        ∃ place : Cursor, place.position.line = cursor.position.line ∧
          items (cursor.advance (first :: others)) back = items place (written rest) := by
      cases rest with
      | nil =>
        exact ⟨[], by rw [written_singleton, hSpelling, List.append_nil], by simp [EndsWord], _,
          hLine, rfl⟩
      | cons next kinds =>
        refine ⟨' ' :: written (next :: kinds), ?_, ?_, _, ?_, items_space _ _⟩
        · rw [written_cons_cons, hSpelling]
          rfl
        · rintro c hc
          cases hc
          rfl
        · exact hLine
    obtain ⟨back, hText, hBack, place, hPlace, hItems⟩ := hTail
    obtain ⟨span, hFirst⟩ := items_lexeme hLexes cursor hBack
    obtain ⟨tokens, last, hTokens, hKinds, hLines, hLast⟩ := hRest place
    refine ⟨⟨kind, first :: others, cursor.position, span⟩ :: tokens, last, ?_, ?_, ?_, hLast⟩
    · rw [hText, hFirst, hItems, hTokens]
      rfl
    · rw [List.map_cons, hKinds]
    · intro token hToken
      rcases List.mem_cons.mp hToken with rfl | hMem
      · rfl
      · rw [hLines token hMem, hPlace]

/-- Written tokens are read as they are, all on the first line, with the end mark behind them. -/
theorem tokenize_written {kinds : List TokenKind} (h : ∀ kind ∈ kinds, kind.isWritable = true) :
    ∃ tokens last, tokenize (written kinds) = .ok (tokens ++ [last]) ∧
      tokens.map Token.kind = kinds ∧ (∀ token ∈ tokens, token.position.line = 1) ∧
      last.kind = .finish := by
  obtain ⟨tokens, last, hItems, hKinds, hLines, hLast⟩ := items_written h .start
  refine ⟨tokens, last, ?_, hKinds, hLines, hLast⟩
  rw [tokenize, itemsOf, hItems, mapM_id_map_ok]

end XdrBindings.Idl
