import XdrBindings.Text.Basic

/-!
# Tokens of the interface language

The interface description language (XDR, with its `hyper` and `namespace` words)
is read as a sequence of tokens: reserved words, names, whole numbers and
punctuation, closed by one end mark. A token knows what it is, how it was spelled
and where it stood.

Reserved words and punctuation are defined by their spelling, and looking a word
up is searching for a spelling, so the two can not disagree.

## Main statements

* `Keyword.ofWord?_spelling`: every reserved word is found by its spelling.
* `Keyword.spelling_of_ofWord?`: what is found is spelled as asked.
* `Symbol.ofChar?_char`: every punctuation mark is found by its character.
-/

namespace XdrBindings.Idl

/-! ## Places -/

/-- A line and a column, both counted from 1. A column counts characters. -/
structure Position where
  line : Nat
  column : Nat
  deriving DecidableEq, Repr

/-- The place as it is written in messages. -/
def Position.display (position : Position) : String :=
  toString position.line ++ ":" ++ toString position.column

/-- The bytes of a source from `start` up to, but not including, `stop`. -/
structure Span where
  start : Nat
  stop : Nat
  deriving DecidableEq, Repr

/-! ## Reserved words -/

/-- The reserved words. -/
inductive Keyword
  | typedef | enum | struct | union | switch | case | default | void | const
  | opaqueData | string | unsigned | int | hyper | float | double | bool | nameSpace
  deriving DecidableEq, Repr

namespace Keyword

/-- How a reserved word is written. -/
def spelling : Keyword → String
  | typedef => "typedef"
  | enum => "enum"
  | struct => "struct"
  | union => "union"
  | switch => "switch"
  | case => "case"
  | default => "default"
  | void => "void"
  | const => "const"
  | opaqueData => "opaque"
  | string => "string"
  | unsigned => "unsigned"
  | int => "int"
  | hyper => "hyper"
  | float => "float"
  | double => "double"
  | bool => "bool"
  | nameSpace => "namespace"

/-- Every reserved word once. -/
def all : List Keyword :=
  [typedef, enum, struct, union, switch, case, default, void, const, opaqueData,
    string, unsigned, int, hyper, float, double, bool, nameSpace]

theorem mem_all (keyword : Keyword) : keyword ∈ all := by
  cases keyword <;> decide

/-- The reserved word with a given spelling. -/
def ofWord? (word : String) : Option Keyword :=
  all.find? fun keyword => keyword.spelling == word

theorem spelling_of_ofWord? {word : String} {keyword : Keyword}
    (h : ofWord? word = some keyword) : keyword.spelling = word := by
  simpa using List.find?_some h

theorem ofWord?_spelling (keyword : Keyword) :
    ofWord? keyword.spelling = some keyword := by
  cases keyword <;> decide

end Keyword

/-! ## Punctuation -/

/-- The punctuation marks. -/
inductive Symbol
  | openBrace | closeBrace | openBracket | closeBracket | openAngle | closeAngle
  | openParen | closeParen | semicolon | colon | comma | assign | star
  deriving DecidableEq, Repr

namespace Symbol

/-- The character of a punctuation mark. -/
def char : Symbol → Char
  | openBrace => '{'
  | closeBrace => '}'
  | openBracket => '['
  | closeBracket => ']'
  | openAngle => '<'
  | closeAngle => '>'
  | openParen => '('
  | closeParen => ')'
  | semicolon => ';'
  | colon => ':'
  | comma => ','
  | assign => '='
  | star => '*'

/-- Every punctuation mark once. -/
def all : List Symbol :=
  [openBrace, closeBrace, openBracket, closeBracket, openAngle, closeAngle,
    openParen, closeParen, semicolon, colon, comma, assign, star]

/-- The punctuation mark written with a given character. -/
def ofChar? (c : Char) : Option Symbol := all.find? fun mark => mark.char == c

theorem char_of_ofChar? {c : Char} {mark : Symbol} (h : ofChar? c = some mark) :
    mark.char = c := by
  simpa using List.find?_some h

theorem ofChar?_char (mark : Symbol) : ofChar? mark.char = some mark := by
  cases mark <;> decide

end Symbol

/-! ## Tokens -/

/-- What a token is. -/
inductive TokenKind
  | keyword (word : Keyword)
  | identifier (name : String)
  /-- A whole number, its sign included. -/
  | number (value : Int)
  | symbol (mark : Symbol)
  /-- The end of the source. -/
  | finish
  deriving DecidableEq, Repr

/-- A token with its spelling and its place. -/
structure Token where
  kind : TokenKind
  text : Text
  position : Position
  span : Span
  deriving DecidableEq, Repr

/-- The token as messages speak of it. -/
def Token.describe (token : Token) : String :=
  let quoted (what : String) := what ++ " '" ++ String.ofList token.text ++ "'"
  match token.kind with
  | .keyword _ => quoted "keyword"
  | .identifier _ => quoted "identifier"
  | .number _ => quoted "number"
  | .symbol _ => quoted "symbol"
  | .finish => "end of input"

end XdrBindings.Idl
