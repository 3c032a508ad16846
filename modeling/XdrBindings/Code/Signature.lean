import XdrBindings.Code.Reader
import XdrBindings.Text.Blank
import XdrBindings.Text.Word

/-!
# Method signatures

A method is recognised by its signature: perhaps `static`, a type, blanks, a name and
an opening parenthesis. A type is a run of word characters and dollar signs, perhaps
type arguments in angle brackets, and perhaps a question mark. Type arguments may hold
type names, commas, blanks, question marks and further brackets; of the brackets that
could close them the last one is meant that leaves a signature.

`declaredMethods` lists the methods that a piece of a class body declares. It goes
through the text from left to right and on behind what it recognised.

## Main statements

* `mem_insertNew`: names are collected without loss.
-/

namespace XdrBindings.Code

/-! ## Types -/

/-- The characters of type names. -/
def isTypeChar (c : Char) : Bool := Text.isWord c || c == '$'

/-- The characters of type arguments. -/
def isArgumentChar (c : Char) : Bool :=
  isTypeChar c || c == '<' || c == '>' || c == '?' || c == ',' || Text.isBlank c

/-- What stands behind each closing bracket in the run of argument characters ahead, the
last one first, with `ends` behind them. -/
def argumentEnds (ends : List Text) : Text → List Text
  | [] => ends
  | c :: rest =>
    if isArgumentChar c then argumentEnds (if c = '>' then rest :: ends else ends) rest else ends

/-- What may stand behind the type arguments ahead, where there are any. -/
def afterArguments : Text → List Text
  | '<' :: rest => argumentEnds [] rest
  | text => [text]

/-- The text behind a question mark, where one is ahead. -/
def afterNullable : Text → Text
  | '?' :: rest => rest
  | text => text

/-- What may stand behind the type at the beginning of a text. -/
def afterType (text : Text) : List Text :=
  if text.head?.any isTypeChar then
    (afterArguments (text.dropWhile isTypeChar)).map afterNullable
  else []

/-- The text behind `static` and blanks. -/
def afterStatic? (text : Text) : Option Text :=
  if text.startsWith "static".toList then Text.afterBlanks? (text.drop 6) else none

/-! ## Signatures -/

/-- A method signature up to its opening parenthesis, and the text behind that. -/
structure Signature where
  type : Text
  name : Text
  rest : Text
  deriving DecidableEq, Repr

/-- The signature at the beginning of a text, `static` left aside. -/
def typedSignature? (text : Text) : Option Signature :=
  (afterType text).findSome? fun behind => do
    let named ← Text.afterBlanks? behind
    let name := named.takeWhile Text.isWord
    match name, Text.trimStart (named.dropWhile Text.isWord) with
    | _ :: _, '(' :: rest => some ⟨text.take (text.length - behind.length), name, rest⟩
    | _, _ => none

/-- The signature at the beginning of a text. -/
def signature? (text : Text) : Option Signature :=
  ((afterStatic? text).bind typedSignature?).or (typedSignature? text)

/-- The signatures in a text with their positions, `skip` being the number of
characters that belong to the last one found. -/
def signaturesFrom : (skip : Nat) → (position : Nat) → Text → List (Nat × Signature)
  | _, _, [] => []
  | skip + 1, position, _ :: rest => signaturesFrom skip (position + 1) rest
  | 0, position, c :: rest =>
    match signature? (c :: rest) with
    | some signature =>
      (position, signature) ::
        signaturesFrom (rest.length - signature.rest.length) (position + 1) rest
    | none => signaturesFrom 0 (position + 1) rest

/-- Words before a name and a parenthesis that are no types. -/
def notTypes : List Text :=
  ["return", "new", "await", "throw", "else", "yield", "case", "in", "is", "as"].map
    String.toList

/-- Words before a parenthesis that are no method names. -/
def notMethods : List Text :=
  ["if", "for", "while", "switch", "return", "get", "set", "catch"].map String.toList

/-- Whether a signature declares a method and is no statement that looks like one. -/
def Signature.isMethod (signature : Signature) : Bool :=
  let type := (signature.type.reverse.dropWhile (· == '?')).reverse
  !notTypes.contains type && !notMethods.contains signature.name

/-- Puts a name at the end of a list, unless it is there. -/
def insertNew (names : List Text) (name : Text) : List Text :=
  if names.contains name then names else names ++ [name]

theorem mem_insertNew {names : List Text} {name other : Text} :
    other ∈ insertNew names name ↔ other ∈ names ∨ other = name := by
  unfold insertNew
  split
  · rename_i h
    constructor
    · exact .inl
    · rintro (hOld | rfl)
      · exact hOld
      · simpa using h
  · simp

/-- The names of the methods that a piece of a class body declares, in order, each
once. -/
def declaredMethods (content : Text) : List Text :=
  let regions := regions content
  let declared := (signaturesFrom 0 0 content).filter fun (position, signature) =>
    regions[position]? == some .code && signature.isMethod
  (declared.map fun (_, signature) => signature.name).foldl insertNew []

end XdrBindings.Code
