import XdrBindings.Text.Basic

/-!
# Code, comments and strings

Generated sources are Dart. Every question about their structure (where does this
class end, is this line a directive or part of a comment) is answered from one
reading of the text, which says of each character whether it is code or belongs to a
comment or a string.

* A line comment runs from two slashes to the end of the line; the newline is code.
* A block comment nests.
* A string is opened by a quote, or by three quotes at once. It ends at the next quote
  of its sort, or at the next three. A string opened by one quote also ends at a
  newline, which is code.
* In a string a backslash takes the next character with it, unless the string is raw:
  unless an `r` that is not the end of a word stands directly before it.

The delimiters belong to what they delimit. The characters that decide all this are
ASCII, so a text and the bytes of its UTF-8 form are read alike.

This module decides one character at a time. A delimiter or an escape of several
characters is decided at its first one; the others are *held*: they are passed over as
part of the same thing.

## Main statements

* `ofChar?_char`: each quote is found by its character.
* `read_held_le`: what is decided at once is at most three characters long.
* `read_of_code`: a character of code leaves the reader in code with nothing held.
-/

namespace XdrBindings.Code

/-! ## Regions and modes -/

/-- What a character belongs to. -/
inductive Region
  | code
  | lineComment
  | blockComment
  | singleQuoted
  | doubleQuoted
  deriving DecidableEq, Repr

/-- The two quotes. -/
inductive Quote
  | single
  | double
  deriving DecidableEq, Repr

namespace Quote

/-- The character of a quote. -/
def char : Quote → Char
  | single => '\''
  | double => '"'

/-- The region of the strings in a sort of quotes. -/
def region : Quote → Region
  | single => .singleQuoted
  | double => .doubleQuoted

/-- The quote that a character is. -/
def ofChar? (c : Char) : Option Quote :=
  if c = single.char then some single
  else if c = double.char then some double
  else none

theorem ofChar?_char (quote : Quote) : ofChar? quote.char = some quote := by
  cases quote <;> decide

/-- Whether the quote stands twice at the beginning of a text. -/
def isTwiceAt (quote : Quote) (text : Text) : Bool :=
  text.startsWith [quote.char, quote.char]

end Quote

/-- What the reader is in the middle of. -/
inductive Mode
  | code
  | lineComment
  /-- A block comment with `depth` comments open, the outermost included. -/
  | blockComment (depth : Nat)
  | string (quote : Quote) (triple raw : Bool)
  deriving DecidableEq, Repr

/-- The region of the characters that a mode reads. -/
def Mode.region : Mode → Region
  | code => .code
  | lineComment => .lineComment
  | blockComment _ => .blockComment
  | string quote _ _ => quote.region

/-! ## The characters behind -/

/-- The characters of words: ASCII letters and digits, the underscore and the dollar
sign. -/
def isNameChar (c : Char) : Bool := c.isAlphanum || c == '_' || c == '$'

/-- What counts of the characters behind the reader: whether the last one belongs to a
word, and whether it is an `r` that begins one. -/
structure Behind where
  word : Bool
  raw : Bool
  deriving DecidableEq, Repr

/-- Nothing behind. -/
def Behind.nothing : Behind := ⟨false, false⟩

/-- What counts behind one more character. -/
def Behind.step (behind : Behind) (c : Char) : Behind :=
  ⟨isNameChar c, c == 'r' && !behind.word⟩

/-- What counts behind a text. -/
def Behind.ofText (text : Text) : Behind := text.foldl Behind.step .nothing

/-! ## One character -/

/-- What a mode makes of the next character, `rest` being the text behind it: the mode
to go on in, how many more characters are held, and the region of all of them. -/
def Mode.read (behind : Behind) (c : Char) (rest : Text) : Mode → Mode × Nat × Region
  | .code =>
    if c = '/' ∧ rest.head? = some '/' then (.lineComment, 1, .lineComment)
    else if c = '/' ∧ rest.head? = some '*' then (.blockComment 1, 1, .blockComment)
    else
      match Quote.ofChar? c with
      | some quote =>
        let triple := quote.isTwiceAt rest
        (.string quote triple behind.raw, if triple then 2 else 0, quote.region)
      | none => (.code, 0, .code)
  | .lineComment => if c = '\n' then (.code, 0, .code) else (.lineComment, 0, .lineComment)
  | .blockComment depth =>
    if c = '*' ∧ rest.head? = some '/' then
      (if depth - 1 = 0 then .code else .blockComment (depth - 1), 1, .blockComment)
    else if c = '/' ∧ rest.head? = some '*' then (.blockComment (depth + 1), 1, .blockComment)
    else (.blockComment depth, 0, .blockComment)
  | .string quote triple raw =>
    let inside : Mode := .string quote triple raw
    if c = '\\' ∧ ¬raw then (inside, 1, quote.region)
    else if c = quote.char then
      if ¬triple then (.code, 0, quote.region)
      else if quote.isTwiceAt rest then (.code, 2, quote.region)
      else (inside, 0, quote.region)
    else if c = '\n' ∧ ¬triple then (.code, 0, .code)
    else (inside, 0, quote.region)

theorem read_of_code {behind : Behind} {c : Char} {rest : Text} {mode : Mode}
    (h : (mode.read behind c rest).2.2 = .code) :
    (mode.read behind c rest).1 = .code ∧ (mode.read behind c rest).2.1 = 0 := by
  have hQuote (quote : Quote) : quote.region ≠ .code := by cases quote <;> decide
  cases mode <;> simp only [Mode.read] at h ⊢ <;> grind

theorem read_held_le (behind : Behind) (c : Char) (rest : Text) (mode : Mode) :
    (mode.read behind c rest).2.1 ≤ 2 := by
  cases mode <;> simp only [Mode.read] <;> grind

end XdrBindings.Code
