import XdrBindings.Code.Reader

/-!
# Braces and statements

Only characters that are code open and close blocks. Two searches read the code of a
text from a place on: for the brace that closes a block, and for the semicolon that ends
a statement. Each keeps the number of brackets open and judges one character of code
after the other. A third function counts the blocks open at a place.

## Main statements

* `searchFrom_eq`: searching while reading a text is searching the list of its code.
* `closingBrace?_eq`, `statementEnd?_eq`: the two searches on the list of the code.
-/

namespace XdrBindings.Code

/-! ## Searches -/

/-- What a search makes of a character of code: to go on with a number of brackets open,
to have found what it looks for, or to give up. -/
inductive Judgement
  | go (depth : Nat)
  | found
  | lost
  deriving DecidableEq, Repr

/-- Searches characters of code, `depth` brackets being open. -/
def search (judge : Nat → Char → Judgement) : (depth : Nat) → List (Nat × Char) → Option Nat
  | _, [] => none
  | depth, (position, c) :: rest =>
    match judge depth c with
    | .go depth => search judge depth rest
    | .found => some position
    | .lost => none

/-- Searches the code of a text that begins at `position` while reading it. -/
def searchFrom (judge : Nat → Char → Judgement) :
    (depth : Nat) → Reader → (position : Nat) → Text → Option Nat
  | _, _, _, [] => none
  | depth, reader, position, c :: rest =>
    let (next, region) := reader.step c rest
    if region = .code then
      match judge depth c with
      | .go depth => searchFrom judge depth next (position + 1) rest
      | .found => some position
      | .lost => none
    else searchFrom judge depth next (position + 1) rest

theorem searchFrom_eq (judge : Nat → Char → Judgement) (depth : Nat) (reader : Reader)
    (position : Nat) (text : Text) :
    searchFrom judge depth reader position text =
      search judge depth (reader.codeFrom position text) := by
  induction text generalizing depth reader position with
  | nil => rfl
  | cons c rest ih =>
    unfold searchFrom Reader.codeFrom
    dsimp only
    split
    · unfold search
      cases judge depth c with
      | go depth => exact ih depth _ _
      | found => rfl
      | lost => rfl
    · exact ih depth _ _

/-! ## The end of a block -/

/-- Looks for the brace that closes the outermost block. -/
def judgeBlock (depth : Nat) (c : Char) : Judgement :=
  if c = '{' then .go (depth + 1)
  else if c = '}' then if depth - 1 = 0 then .found else .go (depth - 1)
  else .go depth

/-- The position of the brace that closes the block opened at a position, if there is a
brace and its block is closed. The opening brace is taken to be code. -/
def closingBrace? (text : Text) (opening : Nat) : Option Nat :=
  if text[opening]? = some '{' then
    searchFrom judgeBlock 0 (Reader.startingAt text opening) opening (text.drop opening)
  else none

theorem closingBrace?_eq (text : Text) (opening : Nat) :
    closingBrace? text opening =
      if text[opening]? = some '{' then search judgeBlock 0 (codeUnitsAt text opening)
      else none := by
  simp only [closingBrace?, searchFrom_eq, codeUnitsAt]

/-! ## The end of a statement -/

/-- Looks for the first semicolon outside all brackets, and gives up where a bracket
closes that was not opened. -/
def judgeStatement (depth : Nat) (c : Char) : Judgement :=
  if c = '(' ∨ c = '[' ∨ c = '{' then .go (depth + 1)
  else if c = ')' ∨ c = ']' ∨ c = '}' then if depth = 0 then .lost else .go (depth - 1)
  else if c = ';' ∧ depth = 0 then .found
  else .go depth

/-- The position of the semicolon that ends the statement at a position, which is taken
to be code. -/
def statementEnd? (text : Text) (position : Nat) : Option Nat :=
  searchFrom judgeStatement 0 (Reader.startingAt text position) position (text.drop position)

theorem statementEnd?_eq (text : Text) (position : Nat) :
    statementEnd? text position = search judgeStatement 0 (codeUnitsAt text position) :=
  searchFrom_eq _ _ _ _ _

/-! ## Nesting -/

/-- The number of blocks open behind one more character of code. A brace that closes
nothing is passed over. -/
def nesting (depth : Nat) (c : Char) : Nat :=
  if c = '{' then depth + 1 else if c = '}' then depth - 1 else depth

/-- The number of blocks open at a position, if it is in code. -/
def depthAt? (text : Text) (position : Nat) : Option Nat :=
  if isCodeAt text position then
    some (((codeUnits text).takeWhile fun unit => unit.1 < position).foldl
      (fun depth unit => nesting depth unit.2) 0)
  else none

end XdrBindings.Code
