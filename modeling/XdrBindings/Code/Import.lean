import XdrBindings.Code.Reader
import XdrBindings.Text.Blank
import XdrBindings.Text.Lines

/-!
# Import directives and the head of a file

An import directive is a line that, without the blanks around it, is the word
`import`, blanks, a path in quotes, and anything without a semicolon up to an optional
last semicolon. The module of an import is the last part of its path, whatever stands
before it: two paths to one module are imports of the same thing.

The head of a file is what stands before its first import or class line. Such a line
begins, behind blanks, with `import` or with `class` and perhaps modifiers before it;
the beginning of the line must be code.

## Main statements

* `isImport_trim`: a directive is a text with an import path.
-/

namespace XdrBindings.Code

/-! ## Directives -/

/-- Either of the two quotes. -/
def isQuote (c : Char) : Bool := c == '\'' || c == '"'

/-- Whether a text holds no semicolon but one with only blanks behind it. -/
def endsStatement (text : Text) : Bool :=
  match text.dropWhile (· != ';') with
  | [] => true
  | _ :: rest => Text.isBlankText rest

/-- The word that begins a directive. -/
def importWord : Text := "import".toList

/-- The path of the import directive that a text is. -/
def pathOfTrimmed? (text : Text) : Option Text :=
  if text.startsWith importWord then
    let behind := text.drop importWord.length
    match behind, Text.trimStart behind with
    | first :: _, quote :: rest =>
      let path := rest.takeWhile fun c => !isQuote c
      match rest.dropWhile fun c => !isQuote c with
      | _ :: tail =>
        if Text.isBlank first && isQuote quote && !path.isEmpty && endsStatement tail then
          some path
        else none
      | [] => none
    | _, _ => none
  else none

/-- The path of an import directive, blanks around it allowed. -/
def importPath? (text : Text) : Option Text := pathOfTrimmed? (Text.trim text)

/-- Whether a text without blanks around it is an import directive. -/
def isImport (text : Text) : Bool := (pathOfTrimmed? text).isSome

theorem isImport_trim (text : Text) : isImport (Text.trim text) = (importPath? text).isSome :=
  rfl

/-- The import directives of a text, without the blanks around them, in order. -/
def importsOf (text : Text) : List Text := (text.lines.map Text.trim).filter isImport

/-- The ending of a file name that its module name leaves out. -/
def fileEnding : Text := ".dart".toList

/-- A text without a given ending. -/
def dropEnding (ending text : Text) : Text :=
  if ending.isSuffixOf text then text.take (text.length - ending.length) else text

/-- The module of an import path: what stands behind the last slash or colon, without
the ending of the file name. -/
def moduleName (path : Text) : Text :=
  dropEnding fileEnding (path.reverse.takeWhile fun c => c != '/' && c != ':').reverse

/-! ## The first line of code -/

/-- The words that may stand before `class`. -/
def classModifiers : List Text :=
  ["abstract", "base", "final", "sealed", "interface", "mixin"].map String.toList

/-- The text behind a word and at least one blank. -/
def skipWord (word text : Text) : Option Text := Text.afterBlanks? (text.drop word.length)

theorem skipWord_length_lt {word text rest : Text} (h : skipWord word text = some rest) :
    rest.length < text.length :=
  Nat.lt_of_lt_of_le (Text.length_lt_of_afterBlanks? h) (by simp)

/-- The text behind its leading modifiers, each with the blanks that follow it. -/
def afterModifiers (text : Text) : Text :=
  match classModifiers.find? text.startsWith with
  | none => text
  | some modifier =>
    match _ : skipWord modifier text with
    | some rest => afterModifiers rest
    | none => text
termination_by text.length
decreasing_by exact skipWord_length_lt ‹_›

/-- The text behind a word and one blank. -/
def afterWord? (word text : Text) : Option Text :=
  if text.startsWith word then
    match text.drop word.length with
    | [] => none
    | c :: rest => if Text.isBlank c then some rest else none
  else none

/-- The number of characters that make a text begin with an import or a class line. -/
def headLength? (text : Text) : Option Nat :=
  let line := text.dropWhile fun c => c == ' ' || c == '\t'
  ((afterWord? importWord line).or (afterWord? "class".toList (afterModifiers line))).map
    fun rest => text.length - rest.length

/-- The positions at which import and class lines begin, `skip` being the number of
characters that belong to the last one found. -/
def headsFrom : (skip : Nat) → (atLineStart : Bool) → (position : Nat) → Text → List Nat
  | _, _, _, [] => []
  | skip + 1, _, position, c :: rest => headsFrom skip (c == '\n') (position + 1) rest
  | 0, atLineStart, position, c :: rest =>
    match if atLineStart then headLength? (c :: rest) else none with
    | some length => position :: headsFrom (length - 1) (c == '\n') (position + 1) rest
    | none => headsFrom 0 (c == '\n') (position + 1) rest

/-- The position of the first import or class line that is code. -/
def firstHead? (text : Text) : Option Nat :=
  let regions := regions text
  (headsFrom 0 true 0 text).find? fun position => regions[position]? == some .code

/-- What stands before the first import or class line, without blanks around it. -/
def headerOf (text : Text) : Option Text :=
  match firstHead? text with
  | none => none
  | some position =>
    match Text.trim (text.take position) with
    | [] => none
    | header => some header

end XdrBindings.Code
