import XdrBindings.Code.Braces
import XdrBindings.Text.Blank
import XdrBindings.Text.Lines

/-!
# Class declarations

A class declaration is the keyword `class`, a name and a block, outside all other
blocks. What stands between the name and the block does not matter, but a semicolon
there ends a declaration without a block, which is no class for us.

A declaration begins at the beginning of the line of its keyword. Documentation and
annotation lines directly above belong to it.

The search is one pass over the code of a text. Outside of classes it keeps the number
of open blocks and the keyword that waits for its block; within a class it keeps the
number of blocks open in the class.

## Main statements

* `declaration_ofPosition_le`: a declaration begins at or before its keyword.
-/

namespace XdrBindings.Code

/-! ## Declarations -/

/-- A class declaration by its positions in a text. -/
structure ClassDecl where
  name : Text
  /-- Where the declaration begins, with what belongs to it above. -/
  start : Nat
  /-- The position of the opening brace. -/
  opening : Nat
  /-- The position of the closing brace. -/
  closing : Nat
  /-- The line of the keyword. -/
  line : Nat
  deriving DecidableEq, Repr

namespace ClassDecl

/-- The text of the whole declaration, through the closing brace. -/
def source (decl : ClassDecl) (text : Text) : Text := text.slice decl.start (decl.closing + 1)

/-- The text between the braces. -/
def body (decl : ClassDecl) (text : Text) : Text := text.slice (decl.opening + 1) decl.closing

/-- Whether a position is strictly between the braces. -/
def encloses (decl : ClassDecl) (position : Nat) : Bool :=
  decl.opening < position && position < decl.closing

end ClassDecl

/-- A class whose block is never closed. -/
structure UnclosedClass where
  name : Text
  line : Nat
  deriving DecidableEq, Repr

/-! ## Heads -/

/-- The keyword of a class declaration. -/
def classWord : Text := "class".toList

/-- Whether a word stands at a spot and is not part of a longer word. -/
def Spot.beginsWord (spot : Spot) (word : Text) : Bool :=
  !spot.behind.word && spot.ahead.startsWith word &&
    !((spot.ahead.drop word.length).head?.any isNameChar)

/-- The name at the beginning of a text, blanks before it allowed. -/
def nameAhead (text : Text) : Option Text :=
  let name := (Text.trimStart text).takeWhile isNameChar
  match name with
  | [] => none
  | first :: _ => if first.isDigit then none else some name

/-- Whether a line belongs to the declaration below it. -/
def isAttached (line : Text) : Bool :=
  Text.startsWith (Text.trim line) "///".toList || Text.startsWith (Text.trim line) ['@']

/-- A line: its number, where it begins, and where a declaration begins that has its
keyword on the line. -/
structure LineHead where
  number : Nat
  start : Nat
  declaration : Nat
  deriving DecidableEq, Repr

namespace LineHead

/-- The heads of lines that follow a line head. -/
def following (head : LineHead) : List Text → List LineHead
  | [] => []
  | chunk :: rest =>
    let stop := head.start + chunk.length
    head :: following
      ⟨head.number + 1, stop, if isAttached chunk then head.declaration else stop⟩ rest

/-- The heads of the lines of a text. -/
def ofText (text : Text) : List LineHead := following ⟨1, 0, 0⟩ text.chunks

/-- The head of the line that a position is on. -/
def ofPosition (heads : List LineHead) (position : Nat) : LineHead :=
  (heads.takeWhile fun head => head.start ≤ position).getLast?.getD ⟨1, 0, 0⟩

theorem declaration_le_of_mem_following {first head : LineHead} {chunks : List Text}
    (hFirst : first.declaration ≤ first.start) (h : head ∈ following first chunks) :
    head.declaration ≤ head.start := by
  induction chunks generalizing first with
  | nil => cases h
  | cons chunk rest ih =>
    rcases List.mem_cons.mp h with rfl | hRest
    · exact hFirst
    · refine ih ?_ hRest
      dsimp only
      split
      · exact Nat.le_trans hFirst (Nat.le_add_right _ _)
      · exact Nat.le_refl _

theorem declaration_ofPosition_le (text : Text) (position : Nat) :
    (LineHead.ofPosition (ofText text) position).declaration ≤ position := by
  unfold ofPosition
  cases hLast : ((ofText text).takeWhile fun head => head.start ≤ position).getLast? with
  | none => exact Nat.zero_le _
  | some head =>
    have hMem := List.mem_of_getLast? hLast
    have hStart : head.start ≤ position := by
      simpa using List.all_eq_true.mp (List.all_takeWhile (l := ofText text)) head hMem
    have hDeclaration : head.declaration ≤ head.start :=
      declaration_le_of_mem_following (Nat.le_refl 0)
        ((List.takeWhile_prefix _).sublist.subset hMem)
    exact Nat.le_trans hDeclaration hStart

end LineHead

/-- The declaration with its keyword and braces at given positions. -/
def ClassDecl.ofPositions (heads : List LineHead) (name : Text)
    (keyword opening closing : Nat) : ClassDecl where
  name
  start := (LineHead.ofPosition heads keyword).declaration
  opening
  closing
  line := (LineHead.ofPosition heads keyword).number

/-! ## Search -/

/-- Where the search stands. -/
inductive Walk
  /-- Outside of classes, with `depth` blocks open and perhaps the name and position of
  a keyword that waits for its block. -/
  | outside (depth : Nat) (pending : Option (Text × Nat))
  /-- Within a class, with `depth` blocks open in it. -/
  | inside (name : Text) (keyword opening depth : Nat)
  deriving DecidableEq, Repr

/-- The name and position of the keyword at a spot, if a declaration begins there. -/
def Spot.head? (spot : Spot) : Option (Text × Nat) :=
  if spot.beginsWord classWord then
    (nameAhead (spot.ahead.drop classWord.length)).map fun name => (name, spot.position)
  else none

/-- What a character of code outside of classes changes. -/
def Walk.stepOutside (depth : Nat) (pending : Option (Text × Nat)) (spot : Spot) : Walk :=
  if spot.char = '{' then
    match pending, depth with
    | some (name, keyword), 0 => .inside name keyword spot.position 0
    | _, _ => .outside (depth + 1) pending
  else if spot.char = '}' then .outside (depth - 1) pending
  else if spot.char = ';' ∧ depth = 0 then .outside depth none
  else if depth = 0 ∧ pending.isNone then .outside depth spot.head?
  else .outside depth pending

/-- The classes found in the code of a text from some place on. -/
def classesFrom (heads : List LineHead) :
    Walk → List Spot → Except UnclosedClass (List ClassDecl)
  | .outside _ _, [] => .ok []
  | .inside name keyword _ _, [] => .error ⟨name, (LineHead.ofPosition heads keyword).number⟩
  | .outside depth pending, spot :: rest =>
    classesFrom heads (Walk.stepOutside depth pending spot) rest
  | .inside name keyword opening depth, spot :: rest =>
    if spot.char = '}' ∧ depth = 0 then do
      let others ← classesFrom heads (.outside 0 none) rest
      return .ofPositions heads name keyword opening spot.position :: others
    else classesFrom heads (.inside name keyword opening (nesting depth spot.char)) rest

/-- The classes of a text in order, or the first one that is never closed. -/
def classesOf (text : Text) : Except UnclosedClass (List ClassDecl) :=
  classesFrom (LineHead.ofText text) (.outside 0 none) (codeSpots text)

end XdrBindings.Code
