import XdrBindings.Idl.Excerpt
import XdrBindings.Idl.Grammar.File
import XdrBindings.Idl.Lexeme

/-!
# From sources to files

A source is read as tokens and the tokens as a file of definitions. The first error of
either sort ends the reading and is reported with its place; an error against the
grammar also quotes the source.

Only the tokens before the first end mark count. An error where they end is reported at
that mark.
-/

namespace XdrBindings.Idl

/-! ## The end of the tokens -/

/-- The tokens before the first end mark. -/
def beforeEnd (tokens : List Token) : List Token :=
  tokens.takeWhile fun token => token.kind != .finish

/-- The first end mark; where there is none, one at the place of the last token. -/
def endMark (tokens : List Token) : Token :=
  match tokens.find? fun token => token.kind == .finish with
  | some token => token
  | none =>
    match tokens.getLast? with
    | some last => ⟨.finish, [], last.position, last.span⟩
    | none => ⟨.finish, [], ⟨0, 0⟩, ⟨0, 0⟩⟩

/-- A fault against the grammar, with what messages say of it. -/
structure GrammarError where
  file : String
  position : Position
  expected : Expected
  found : String
  /-- The excerpt with a caret under the token, where the source is at hand. -/
  context : Option String
  deriving DecidableEq, Repr

/-- The message with its file, its place and its excerpt. -/
def GrammarError.message (ink : Ink) (error : GrammarError) : String :=
  ink.red "error" ++ ": " ++ error.file ++ ":" ++ error.position.display ++ ": expected " ++
    error.expected.describe ++ ", found " ++ error.found ++
    match error.context with
    | some context => "\n" ++ context
    | none => ""

/-- Reads a file from tokens. The source, where it is given, is quoted in errors. -/
def parseTokens (ink : Ink) (filename : String) (source : Option Text)
    (tokens : List Token) : Except GrammarError File :=
  match Grammar.topLevel (beforeEnd tokens) with
  | .ok (nameSpace, definitions) =>
    .ok ⟨filename, nameSpace, definitions.flatMap Definition.unfolded⟩
  | .error fault =>
    let token := fault.ahead.headD (endMark tokens)
    .error
      { file := filename
        position := token.position
        expected := fault.expected
        found := token.describe
        context := source.map fun source => Excerpt.render ink source token.text token.position }

/-- Why a source is not a file of declarations. -/
inductive IdlError
  | lexical (error : LexicalError)
  | grammar (error : GrammarError)
  deriving DecidableEq, Repr

/-- The message of either sort of error. -/
def IdlError.message (ink : Ink) : IdlError → String
  | .lexical error => error.message
  | .grammar error => error.message ink

/-- Reads a file from its source. References in enumerations stay open. -/
def parse (ink : Ink) (filename : String) (source : Text) : Except IdlError File :=
  match tokenize source with
  | .error fault => .error (.lexical ⟨filename, fault⟩)
  | .ok tokens => (parseTokens ink filename (some source) tokens).mapError .grammar

end XdrBindings.Idl
