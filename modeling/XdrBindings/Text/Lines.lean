import XdrBindings.Text.Basic

/-!
# Lines

There are three ways to cut a text into lines. `chunks` keeps the newline at the end
of each line, so that the text is the concatenation of its chunks. `lines` drops it,
together with one carriage return before it; a carriage return at the very end of
the text, with no newline after it, stays. For both a newline at the end of the text
ends the last line and starts no further one.

`pieces` cuts at every newline and drops nothing else, so a newline at the end of the
text has an empty piece behind it.

## Main statements

* `chunks_flatten`: the chunks of a text concatenate to it.
* `cut_ne_nil`: there is always a piece.
-/

namespace XdrBindings.Text

/-- The lines of a text, each with the newline that ends it. -/
def chunks : Text → List Text
  | [] => []
  | c :: rest =>
    if c = '\n' then [c] :: chunks rest
    else
      match chunks rest with
      | [] => [[c]]
      | line :: others => (c :: line) :: others

@[simp] theorem chunks_flatten (text : Text) : text.chunks.flatten = text := by
  induction text with
  | nil => rfl
  | cons c rest ih =>
    by_cases h : c = '\n'
    · simp [chunks, h, ih]
    · cases hChunks : chunks rest with
      | nil => simp_all [chunks]
      | cons line others => simp_all [chunks]

/-- A chunk without its newline and without a carriage return just before the
newline. -/
def stripTerminator (chunk : Text) : Text :=
  match chunk.reverse with
  | '\n' :: '\r' :: front => front.reverse
  | '\n' :: front => front.reverse
  | _ => chunk

/-- The lines of a text without their terminators. -/
def lines (text : Text) : List Text := text.chunks.map stripTerminator

/-- The pieces of a text between occurrences of a character: one more than there are
occurrences. -/
def cut (separator : Char) : Text → List Text
  | [] => [[]]
  | c :: rest =>
    if c = separator then [] :: cut separator rest
    else
      match cut separator rest with
      | [] => [[c]]
      | piece :: others => (c :: piece) :: others

theorem cut_ne_nil (separator : Char) (text : Text) : text.cut separator ≠ [] := by
  induction text with
  | nil => simp [cut]
  | cons c rest ih =>
    by_cases h : c = separator
    · simp [cut, h]
    · cases hPieces : cut separator rest with
      | nil => exact absurd hPieces ih
      | cons piece others => simp [cut, h, hPieces]

/-- The pieces of a text between its newlines. -/
def pieces (text : Text) : List Text := text.cut '\n'

/-- Pieces put together with a newline between them. -/
def ofPieces (pieces : List Text) : Text := join ['\n'] pieces

/-! ## Lines and positions -/

/-- The number of the line that a position is on, counted from 1. -/
def lineOf (text : Text) (position : Nat) : Nat := (text.take position).count '\n' + 1

end XdrBindings.Text
