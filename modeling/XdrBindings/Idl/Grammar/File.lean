import XdrBindings.Idl.Grammar.Field

/-!
# Definitions and files

A file is a sequence of definitions and stray semicolons, perhaps within a namespace.
The brace that closes a namespace closes the file with it.

## Main statements

* `definitions_semicolon`: a stray semicolon is passed over.
-/

namespace XdrBindings.Idl.Grammar

/-- Reads one definition. -/
def definition (tokens : List Token) : Except Fault (Read Definition) :=
  let line := lineAhead tokens
  if isKeywordAhead .const tokens then do
    let (declared, tokens) ← constant line tokens.tail
    return (.constant declared, tokens)
  else if isKeywordAhead .typedef tokens then do
    let (declared, tokens) ← typedef line tokens.tail
    return (.typedef declared, tokens)
  else if isKeywordAhead .enum tokens then do
    let (declared, tokens) ← enum line tokens.tail
    return (.enum declared, tokens)
  else if isKeywordAhead .struct tokens then do
    let (declared, tokens) ← struct line tokens.tail
    return (.struct declared, tokens)
  else if isKeywordAhead .union tokens then do
    let (declared, tokens) ← union line tokens.tail
    return (.union declared, tokens)
  else
    .error ⟨.definition, tokens⟩

/-- Reads the definitions of a file, at most `bound` items. In a namespace a closing
brace ends the file, and what stands behind it is not looked at. -/
def definitions (inNameSpace : Bool) : (bound : Nat) → List Token →
    Except Fault (List Definition)
  | 0, tokens => .error ⟨.definition, tokens⟩
  | bound + 1, tokens =>
    if tokens.isEmpty || (inNameSpace && isAhead .closeBrace tokens) then .ok []
    else if isAhead .semicolon tokens then definitions inNameSpace bound tokens.tail
    else do
      let (first, tokens) ← definition tokens
      let others ← definitions inNameSpace bound tokens
      return first :: others

theorem definitions_semicolon {inNameSpace : Bool} {bound : Nat} {token : Token}
    {tokens : List Token} (h : token.kind = .symbol .semicolon) :
    definitions inNameSpace (bound + 1) (token :: tokens) =
      definitions inNameSpace bound tokens := by
  simp [definitions, isAhead, h]

/-- Reads a whole file: its namespace and the definitions written at its top level. -/
def topLevel (tokens : List Token) : Except Fault (Option String × List Definition) :=
  if isKeywordAhead .nameSpace tokens then do
    let (name, tokens) ← identifier tokens.tail
    let tokens ← symbol .openBrace tokens
    let definitions ← definitions true (tokens.length + 1) tokens
    return (some name, definitions)
  else do
    let definitions ← definitions false (tokens.length + 1) tokens
    return (none, definitions)

end XdrBindings.Idl.Grammar
