import XdrBindings.Code.Reader
import XdrBindings.Text.Word

/-!
# Renaming

A name is replaced wherever it stands as a whole word in code; comments and strings
stay as they are. The ends of a word are word boundaries, so a name is not replaced
within a longer one.

The text is read once from left to right, each character with its region, and reading
goes on behind every occurrence, whether it is code or not.

The empty name stands at every word boundary, and the new name is written at those that
touch code.

## Main statements

* `units_chars`: reading a text with its regions loses nothing.
-/

namespace XdrBindings.Code

/-! ## Occurrences -/

/-- The characters of a text, each with its region. -/
def units (text : Text) : List (Char × Region) := text.zip (regions text)

@[simp] theorem units_chars (text : Text) : (units text).map Prod.fst = text := by
  rw [units, List.map_fst_zip]
  simp

/-- Whether a name stands as a whole word at the beginning of what is ahead. -/
def isWordAhead (name : Text) (before : Option Char) (ahead : List (Char × Region)) : Bool :=
  (ahead.take name.length).map Prod.fst == name &&
    Text.isBoundary before name.head? &&
    Text.isBoundary name.getLast? (ahead[name.length]?.map Prod.fst)

/-- Whether the first `count` characters ahead are all code. -/
def isCodeAhead (count : Nat) (ahead : List (Char × Region)) : Bool :=
  (ahead.take count).all fun unit => unit.2 == .code

/-! ## Replacement -/

/-- Replaces a name that is not empty. Of the characters ahead, `drop` belong to an
occurrence that is replaced, and behind them `keep` to one that stays. -/
def replaceWords (old new : Text) :
    (drop keep : Nat) → (before : Option Char) → List (Char × Region) → Text
  | _, _, _, [] => []
  | drop + 1, keep, _, (c, _) :: rest => replaceWords old new drop keep (some c) rest
  | 0, keep + 1, _, (c, _) :: rest => c :: replaceWords old new 0 keep (some c) rest
  | 0, 0, before, (c, region) :: rest =>
    if isWordAhead old before ((c, region) :: rest) then
      if isCodeAhead old.length ((c, region) :: rest) then
        new ++ replaceWords old new (old.length - 1) 0 (some c) rest
      else c :: replaceWords old new 0 (old.length - 1) (some c) rest
    else c :: replaceWords old new 0 0 (some c) rest

/-- Whether the place between two characters is a word boundary that touches code. -/
def isCodeBoundary (before after : Option (Char × Region)) : Bool :=
  Text.isBoundary (before.map Prod.fst) (after.map Prod.fst) &&
    (before.any (·.2 == .code) || after.any (·.2 == .code))

/-- Writes a name at every word boundary that touches code. -/
def insertAtBoundaries (new : Text) : (before : Option (Char × Region)) →
    List (Char × Region) → Text
  | before, [] => if isCodeBoundary before none then new else []
  | before, unit :: rest =>
    (if isCodeBoundary before (some unit) then new else []) ++
      unit.1 :: insertAtBoundaries new (some unit) rest

/-- The text with a name replaced by another one wherever it is a word in code. -/
def renameWord (old new text : Text) : Text :=
  match old with
  | [] => insertAtBoundaries new none (units text)
  | _ :: _ => replaceWords old new 0 0 none (units text)

end XdrBindings.Code
