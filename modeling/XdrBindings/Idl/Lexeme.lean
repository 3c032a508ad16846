import XdrBindings.Idl.Token

/-!
# From characters to tokens

A source is read from left to right. Between tokens stand white space, comments
and directive lines; then the longest word or number, or one punctuation mark, is
taken as a token.

* White space is the space, the tab, the newline, the form feed and the carriage
  return.
* A line comment runs from two slashes to the end of the line. A block comment ends
  at the first star followed by a slash; block comments do not nest.
* A directive line begins with a percent sign that has only blanks before it on
  its line, and runs to the end of the line.
* A word is made of ASCII letters, digits and underscores and does not begin with a
  digit. It is a keyword or an identifier.
* A number is a run of digits, or `0x` and a run of hexadecimal digits, with an
  optional minus sign directly before. It has to fit in 64 bits, sign included: the
  digits are taken in as a word of 64 bits, the sign as one of 128, and what comes out
  has to be one of 64 again.

`items` is what reading yields, one element for each token, up to the end mark or
the first error; `tokenize` is the same thing as one result.

## Main statements

* `number?_eq`: the number of a numeral is read exactly, or it does not fit.
* `lexemeAt_begins`: a token is spelled as the text begins.
* `skipGap_length_le`: skipping never makes a text longer, and a token takes at
  least one character, which is why reading ends.
-/

namespace XdrBindings.Idl

/-! ## Errors -/

/-- Why a source is not a sequence of tokens. -/
inductive LexicalCause
  | unrecognizedCharacter (found : Char)
  | unterminatedComment
  | invalidHexLiteral (literal : Text)
  | integerOutOfRange (literal : Text)
  deriving DecidableEq, Repr

/-- A cause and the place it was met. -/
structure LexicalFault where
  position : Position
  cause : LexicalCause
  deriving DecidableEq, Repr

/-- A fault in a named file. -/
structure LexicalError where
  file : String
  fault : LexicalFault
  deriving DecidableEq, Repr

/-- What a cause says. -/
def LexicalCause.message : LexicalCause → String
  | .unrecognizedCharacter found => "unrecognized character '" ++ String.singleton found ++ "'"
  | .unterminatedComment => "unterminated block comment"
  | .invalidHexLiteral literal =>
    "invalid hexadecimal literal '" ++ String.ofList literal ++ "'"
  | .integerOutOfRange literal =>
    "integer literal '" ++ String.ofList literal ++ "' does not fit in 64 bits"

/-- The message with its file and place. -/
def LexicalError.message (error : LexicalError) : String :=
  error.file ++ ":" ++ error.fault.position.display ++ ": " ++ error.fault.cause.message

/-! ## The place of the reader -/

/-- Where the reader stands: the place of the next character, the bytes before it,
and whether only white space stands before it on its line. -/
structure Cursor where
  position : Position
  offset : Nat
  lineIsBlank : Bool
  deriving DecidableEq, Repr

/-- The beginning of a source. -/
def Cursor.start : Cursor := ⟨⟨1, 1⟩, 0, true⟩

/-- White space between tokens. -/
def isSpace (c : Char) : Bool :=
  c == ' ' || c == '\t' || c == '\n' || c == '\x0c' || c == '\r'

/-- The cursor behind one more character. Only a newline begins a line. -/
def Cursor.step (cursor : Cursor) (c : Char) : Cursor :=
  { position :=
      if c = '\n' then ⟨cursor.position.line + 1, 1⟩
      else ⟨cursor.position.line, cursor.position.column + 1⟩
    offset := cursor.offset + c.utf8Size
    lineIsBlank := c == '\n' || (cursor.lineIsBlank && isSpace c) }

/-- The cursor behind a whole text. -/
def Cursor.advance (cursor : Cursor) (text : Text) : Cursor := text.foldl Cursor.step cursor

/-! ## What stands between tokens -/

/-- What the reader is in the middle of while it skips. -/
inductive Gap
  | space
  /-- A comment or a directive that ends with the line. -/
  | line
  /-- The second character of the opening of a block comment that began at `opened`. -/
  | opening (opened : Position)
  /-- A block comment; `star` tells whether the character before is a star in it. -/
  | block (opened : Position) (star : Bool)
  deriving DecidableEq, Repr

/-- Skips to the next token and gives the place reached with the text left. -/
def skipGap : Gap → Cursor → Text → Except LexicalFault (Cursor × Text)
  | .space, cursor, [] => .ok (cursor, [])
  | .space, cursor, c :: rest =>
    if isSpace c then skipGap .space (cursor.step c) rest
    else if c = '/' ∧ rest.head? = some '/' then skipGap .line (cursor.step c) rest
    else if c = '/' ∧ rest.head? = some '*' then
      skipGap (.opening cursor.position) (cursor.step c) rest
    else if c = '%' ∧ cursor.lineIsBlank then skipGap .line (cursor.step c) rest
    else .ok (cursor, c :: rest)
  | .line, cursor, [] => .ok (cursor, [])
  | .line, cursor, c :: rest =>
    skipGap (if c = '\n' then .space else .line) (cursor.step c) rest
  | .opening opened, _, [] => .error ⟨opened, .unterminatedComment⟩
  | .opening opened, cursor, c :: rest =>
    skipGap (.block opened false) (cursor.step c) rest
  | .block opened _, _, [] => .error ⟨opened, .unterminatedComment⟩
  | .block opened star, cursor, c :: rest =>
    skipGap (if star ∧ c = '/' then .space else .block opened (c == '*')) (cursor.step c) rest

theorem skipGap_length_le {gap : Gap} {cursor after : Cursor} {text rest : Text}
    (h : skipGap gap cursor text = .ok (after, rest)) : rest.length ≤ text.length := by
  fun_induction skipGap gap cursor text <;> grind

/-! ## Words and numbers -/

/-- The characters of words. -/
def isWordChar (c : Char) : Bool := c.isAlphanum || c == '_'

/-- The digits of base sixteen. -/
def isHexDigit (c : Char) : Bool :=
  c.isDigit || ('a' ≤ c && c ≤ 'f') || ('A' ≤ c && c ≤ 'F')

/-- The value of a digit of a base up to sixteen. -/
def digitValue (c : Char) : Nat :=
  if c.isDigit then c.toNat - '0'.toNat
  else if c.isLower then c.toNat - 'a'.toNat + 10
  else c.toNat - 'A'.toNat + 10

/-- The number written by a run of digits, the most significant first. -/
def ofDigits (base : Nat) (digits : Text) : Nat :=
  digits.foldl (fun value c => value * base + digitValue c) 0

/-- A word of 64 bits with one more digit behind it, if the number still fits. -/
def appendDigit? (base : Nat) (word : UInt64) (digit : Char) : Option UInt64 :=
  let value := word.toNat * base + digitValue digit
  if value < UInt64.size then some (.ofNat value) else none

/-- The word of 64 bits that a run of digits writes. The digits are taken in one after the
other, and there is no word once the number does not fit. -/
def wordOfDigits? (base : Nat) (digits : Text) : Option UInt64 :=
  digits.foldlM (appendDigit? base) 0

/-- A word with its sign, in 128 bits. -/
def signedWord (negative : Bool) (word : UInt64) : BitVec 128 :=
  let wide := word.toBitVec.setWidth 128
  if negative then -wide else wide

/-- A number does not get smaller by more digits. -/
theorem le_foldl_digits {base : Nat} (hBase : 0 < base) (digits : Text) (value : Nat) :
    value ≤ digits.foldl (fun value c => value * base + digitValue c) value := by
  induction digits generalizing value with
  | nil => exact Nat.le_refl _
  | cons c rest ih =>
    have hStep : value ≤ value * base + digitValue c :=
      Nat.le_trans (Nat.le_mul_of_pos_right value hBase) (Nat.le_add_right _ _)
    exact Nat.le_trans hStep (ih _)

theorem toNat_foldlM_appendDigit? {base : Nat} (hBase : 0 < base) (digits : Text)
    (word : UInt64) :
    (digits.foldlM (appendDigit? base) word).map UInt64.toNat =
      let value := digits.foldl (fun value c => value * base + digitValue c) word.toNat
      if value < UInt64.size then some value else none := by
  induction digits generalizing word with
  | nil => simp [UInt64.toNat_lt_size word]
  | cons c rest ih =>
    rw [List.foldlM_cons, appendDigit?]
    dsimp only
    rw [List.foldl_cons]
    split
    · rename_i hFits
      have hWord : (UInt64.ofNat (word.toNat * base + digitValue c)).toNat =
          word.toNat * base + digitValue c := UInt64.toNat_ofNat_of_lt hFits
      have hRest := ih (.ofNat (word.toNat * base + digitValue c))
      rw [hWord] at hRest
      exact hRest
    · -- what does not fit never does again
      have hLe := le_foldl_digits hBase rest (word.toNat * base + digitValue c)
      rw [if_neg (by omega)]
      rfl

/-- Digits are taken in without loss exactly if their number fits in 64 bits. -/
theorem toNat_wordOfDigits? {base : Nat} (hBase : 0 < base) (digits : Text) :
    (wordOfDigits? base digits).map UInt64.toNat =
      if ofDigits base digits < UInt64.size then some (ofDigits base digits) else none :=
  toNat_foldlM_appendDigit? hBase digits 0

/-- In 128 bits every word has its negative. -/
theorem toInt_signedWord (negative : Bool) (word : UInt64) :
    (signedWord negative word).toInt =
      if negative then -(word.toNat : Int) else word.toNat := by
  have hLess : word.toNat < 18446744073709551616 := UInt64.toNat_lt_size word
  have hWide : (word.toBitVec.setWidth 128).toInt = word.toNat := by
    rw [BitVec.toInt_eq_toNat_of_lt]
    · simp
      omega
    · simp
      omega
  unfold signedWord
  dsimp only
  split
  · rw [BitVec.toInt_neg, hWide, Int.bmod_eq_of_le]
    · omega
    · omega
  · exact hWide

/-- The number of values of 63 bits, which is where numbers of 64 bits with a sign end. -/
def wordEnd : Nat := Nat.pow 2 63

/-- Whether a number fits in 64 bits with its sign. -/
def fitsWord (value : Int) : Bool := -(wordEnd : Int) ≤ value && value < (wordEnd : Int)

theorem fitsWord_iff {value : Int} :
    fitsWord value = true ↔ -9223372036854775808 ≤ value ∧ value ≤ 9223372036854775807 := by
  have hEnd : wordEnd = 9223372036854775808 := by decide
  simp only [fitsWord, hEnd, Bool.and_eq_true, decide_eq_true_eq]
  omega

/-- The kind of a word: a keyword if it is reserved. -/
def wordKind (word : Text) : TokenKind :=
  match Keyword.ofWord? (String.ofList word) with
  | some keyword => .keyword keyword
  | none => .identifier (String.ofList word)

/-- The sign in front of a number. -/
def signOf : Text → Text
  | '-' :: _ => ['-']
  | _ => []

/-- The mark of base sixteen in front of digits. -/
def hexMarkOf : Text → Text
  | '0' :: 'x' :: _ => ['0', 'x']
  | '0' :: 'X' :: _ => ['0', 'X']
  | _ => []

/-- A number as it is written. -/
structure Numeral where
  sign : Text
  /-- The mark of base sixteen, or nothing. -/
  mark : Text
  digits : Text
  deriving DecidableEq, Repr

namespace Numeral

/-- The numeral at the beginning of a text. -/
def ofText (text : Text) : Numeral :=
  let sign := signOf text
  let unsigned := text.drop sign.length
  let mark := hexMarkOf unsigned
  ⟨sign, mark, (unsigned.drop mark.length).takeWhile
    (if mark.isEmpty then Char.isDigit else isHexDigit)⟩

/-- The whole spelling. -/
def literal (numeral : Numeral) : Text := numeral.sign ++ numeral.mark ++ numeral.digits

/-- The number that is meant. -/
def value (numeral : Numeral) : Int :=
  let magnitude := ofDigits (if numeral.mark.isEmpty then 10 else 16) numeral.digits
  if numeral.sign.isEmpty then magnitude else -magnitude

/-- The number that is read: the digits as a word of 64 bits, with its sign in 128 bits, if
that fits in 64 bits. -/
def number? (numeral : Numeral) : Option Int :=
  match wordOfDigits? (if numeral.mark.isEmpty then 10 else 16) numeral.digits with
  | none => none
  | some word =>
    let number := (signedWord (!numeral.sign.isEmpty) word).toInt
    if fitsWord number then some number else none

/-- The token that a numeral is, if it has digits and its number fits. -/
def kind (numeral : Numeral) : Except LexicalCause TokenKind :=
  if !numeral.mark.isEmpty && numeral.digits.isEmpty then
    .error (.invalidHexLiteral numeral.literal)
  else
    match numeral.number? with
    | some number => .ok (.number number)
    | none => .error (.integerOutOfRange numeral.literal)

/-- No step of reading loses anything of a number that fits. -/
theorem number?_eq (numeral : Numeral) :
    numeral.number? = if fitsWord numeral.value then some numeral.value else none := by
  have hBase : 0 < if numeral.mark.isEmpty then 10 else 16 := by split <;> decide
  have hWord := toNat_wordOfDigits? hBase numeral.digits
  unfold number? value
  dsimp only
  generalize ofDigits (if numeral.mark.isEmpty then 10 else 16) numeral.digits = magnitude at *
  cases hDigits : wordOfDigits? (if numeral.mark.isEmpty then 10 else 16) numeral.digits with
  | some word =>
    have hMagnitude : word.toNat = magnitude := by
      rw [hDigits, Option.map_some] at hWord
      split at hWord
      · exact Option.some.inj hWord
      · cases hWord
    dsimp only
    rw [toInt_signedWord, hMagnitude]
    cases numeral.sign.isEmpty <;> rfl
  | none =>
    -- what takes more than 64 bits does not fit with a sign either
    have hLarge : 18446744073709551616 ≤ magnitude := by
      rw [hDigits, Option.map_none] at hWord
      split at hWord
      · cases hWord
      · rename_i hLess
        exact Nat.not_lt.mp hLess
    dsimp only
    rw [if_neg]
    rw [fitsWord_iff]
    split <;> omega

/-- The kind of a numeral by the number that is meant. -/
theorem kind_eq (numeral : Numeral) :
    numeral.kind =
      if !numeral.mark.isEmpty && numeral.digits.isEmpty then
        .error (.invalidHexLiteral numeral.literal)
      else if fitsWord numeral.value then .ok (.number numeral.value)
      else .error (.integerOutOfRange numeral.literal) := by
  unfold kind
  rw [number?_eq]
  cases fitsWord numeral.value <;> rfl

end Numeral

/-- Whether a number begins here. -/
def startsNumber : Text → Bool
  | '-' :: d :: _ => d.isDigit
  | c :: _ => c.isDigit
  | [] => false

/-- The token at the beginning of a text that is not empty: its kind and its
spelling. -/
def lexemeAt (c : Char) (rest : Text) : Except LexicalCause (TokenKind × Text) :=
  if c.isAlpha || c == '_' then
    let word := c :: rest.takeWhile isWordChar
    .ok (wordKind word, word)
  else if startsNumber (c :: rest) then
    let numeral := Numeral.ofText (c :: rest)
    numeral.kind.map fun kind => (kind, numeral.literal)
  else
    match Symbol.ofChar? c with
    | some mark => .ok (.symbol mark, [c])
    | none => .error (.unrecognizedCharacter c)

theorem signOf_begins (text : Text) : signOf text <+: text := by
  unfold signOf
  split
  · exact ⟨_, rfl⟩
  · exact List.nil_prefix

theorem hexMarkOf_begins (text : Text) : hexMarkOf text <+: text := by
  unfold hexMarkOf
  split
  · exact ⟨_, rfl⟩
  · exact ⟨_, rfl⟩
  · exact List.nil_prefix

theorem append_begins_of_drop {front back text : Text} (hFront : front <+: text)
    (hBack : back <+: text.drop front.length) : front ++ back <+: text := by
  obtain ⟨rest, rfl⟩ := hFront
  rw [List.drop_left] at hBack
  exact (List.prefix_append_right_inj front).mpr hBack

theorem literal_ofText_begins (text : Text) : (Numeral.ofText text).literal <+: text := by
  unfold Numeral.literal
  rw [List.append_assoc]
  refine append_begins_of_drop (signOf_begins text) ?_
  exact append_begins_of_drop (hexMarkOf_begins _) (List.takeWhile_prefix _)

theorem lexemeAt_begins {c : Char} {rest lexeme : Text} {kind : TokenKind}
    (h : lexemeAt c rest = .ok (kind, lexeme)) : lexeme <+: c :: rest := by
  unfold lexemeAt at h
  split at h
  · cases h
    exact (List.prefix_cons_inj c).mpr (List.takeWhile_prefix _)
  · split at h
    · cases hKind : (Numeral.ofText (c :: rest)).kind with
      | error cause => simp [hKind, Except.map] at h
      | ok found =>
        simp only [hKind, Except.map, Except.ok.injEq, Prod.mk.injEq] at h
        exact h.2 ▸ literal_ofText_begins (c :: rest)
    · split at h
      · cases h
        exact ⟨rest, rfl⟩
      · cases h

/-! ## Reading -/

/-- What reading yields: the tokens in order, closed by the end mark or by the first
error. -/
def items (cursor : Cursor) (text : Text) : List (Except LexicalFault Token) :=
  match _ : skipGap .space cursor text with
  | .error fault => [.error fault]
  | .ok (place, []) => [.ok ⟨.finish, [], place.position, ⟨place.offset, place.offset⟩⟩]
  | .ok (place, c :: rest) =>
    match lexemeAt c rest with
    | .error cause => [.error ⟨place.position, cause⟩]
    | .ok (kind, lexeme) =>
      let after := place.advance lexeme
      .ok ⟨kind, lexeme, place.position, ⟨place.offset, after.offset⟩⟩ ::
        items after (rest.drop lexeme.tail.length)
termination_by text.length
decreasing_by
  have hSkip := skipGap_length_le ‹skipGap .space cursor text = _›
  simp only [List.length_cons, List.length_drop] at hSkip ⊢
  omega

/-- The items of a whole source. -/
def itemsOf (source : Text) : List (Except LexicalFault Token) := items .start source

/-- The tokens of a source with the end mark last, or its first error. -/
def tokenize (source : Text) : Except LexicalFault (List Token) := (itemsOf source).mapM id

end XdrBindings.Idl
