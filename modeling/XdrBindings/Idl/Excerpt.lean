import XdrBindings.Idl.Token
import XdrBindings.Text.Lines

/-!
# Excerpts with a caret

A diagnostic quotes the line of the offending token, up to three lines before it,
and a row of carets under the token. Carets and the word `error` can be painted red
for a terminal.

A line number past the end of the source quotes the last line; a source without
lines has no excerpt.
-/

namespace XdrBindings.Idl

/-- Whether messages are painted for a terminal. -/
inductive Ink
  | plain
  | terminal
  deriving DecidableEq, Repr

/-- The text in red. -/
def Ink.red : Ink → String → String
  | .plain, s => s
  | .terminal, s => "\x1b[31m" ++ s ++ "\x1b[0m"

namespace Excerpt

/-- Number of lines quoted before the line of the token. -/
def leading : Nat := 3

/-- The lines quoted for the line with index `index`. -/
def shown (lines : List Text) (index : Nat) : List Text :=
  (lines.take (index + 1)).drop (index - leading)

/-- The row of carets under a token: as wide as the token and at least one. -/
def carets (text : Text) : String := "".pushn '^' (max 1 text.length)

/-- The excerpt for a token with the given spelling and place. -/
def render (ink : Ink) (source text : Text) (position : Position) : String :=
  let lines := source.lines
  if lines.isEmpty || position.line == 0 then ""
  else
    let index := min (position.line - 1) (lines.length - 1)
    String.ofList (Text.join ['\n'] (shown lines index)) ++ "\n" ++
      "".pushn ' ' (position.column - 1) ++ ink.red (carets text)

end Excerpt

end XdrBindings.Idl
