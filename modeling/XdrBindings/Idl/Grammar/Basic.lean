import XdrBindings.Idl.Declaration
import XdrBindings.Idl.Fault

/-!
# The grammar of the interface language

One function reads each rule of the grammar: it takes the tokens ahead and gives
what it read with the tokens left, or the first fault.

```text
file       = [ "namespace" NAME "{" ] item*        a "}" closes the namespace and the file
item       = ";" | constant | typedef | enum | struct | union
constant   = "const" NAME "=" NUMBER ";"
typedef    = "typedef" declarator ";"
enum       = "enum" NAME "{" ( NAME "=" ( NUMBER | NAME ) [ "," ] )* "}" ";"
struct     = "struct" NAME "{" field* "}" ";"
union      = "union" NAME switch "{" arm* "}" ";"
switch     = "switch" "(" ( "int" | "unsigned" "int" | "bool" | NAME ) NAME ")"
arm        = ( "case" ( NUMBER | NAME ) ":" | "default" ":" )+ ( "void" ";" | field )
field      = declarator ";"
           | "struct" "{" field* "}" NAME suffix ";"
           | "union" switch "{" arm* "}" NAME suffix ";"
declarator = type ( "*" NAME | NAME suffix )
suffix     = [ "[" size "]" | "<" [ size ] ">" ]
```

This module reads single tokens and what stands between braces. The number of tokens
ahead bounds the length of every repetition, because each item takes at least one
token.

## Main statements

* `symbol_length`: a single token is taken.
-/

namespace XdrBindings.Idl.Grammar

/-! ## Single tokens -/

/-- The line of the next token. No rule succeeds where there is none. -/
def lineAhead : List Token → Nat
  | [] => 0
  | token :: _ => token.position.line

/-- Whether the next token is the given punctuation mark. -/
def isAhead (mark : Symbol) : List Token → Bool
  | [] => false
  | token :: _ => token.kind == .symbol mark

/-- Whether the next token is the given keyword. -/
def isKeywordAhead (word : Keyword) : List Token → Bool
  | [] => false
  | token :: _ => token.kind == .keyword word

/-- Reads a punctuation mark. -/
def symbol (mark : Symbol) (tokens : List Token) : Except Fault (List Token) :=
  if isAhead mark tokens then .ok tokens.tail else .error ⟨.symbol mark, tokens⟩

theorem symbol_length {mark : Symbol} {tokens rest : List Token}
    (h : symbol mark tokens = .ok rest) : rest.length + 1 = tokens.length := by
  cases tokens with
  | nil => simp [symbol, isAhead] at h
  | cons token others =>
    simp only [symbol] at h
    split at h
    · cases h; rfl
    · cases h

/-- Reads a keyword. -/
def keyword (word : Keyword) (tokens : List Token) : Except Fault (List Token) :=
  if isKeywordAhead word tokens then .ok tokens.tail else .error ⟨.keyword word, tokens⟩

/-- Reads a name. -/
def identifier (tokens : List Token) : Except Fault (Read String) :=
  match tokens with
  | ⟨.identifier name, _, _, _⟩ :: rest => .ok (name, rest)
  | _ => .error ⟨.identifier, tokens⟩

/-- Reads a number. -/
def number (tokens : List Token) : Except Fault (Read Int) :=
  match tokens with
  | ⟨.number value, _, _, _⟩ :: rest => .ok (value, rest)
  | _ => .error ⟨.number, tokens⟩

/-- Reads an array bound or a string length. -/
def size (tokens : List Token) : Except Fault (Read Size) :=
  match tokens with
  | ⟨.number value, _, _, _⟩ :: rest =>
    if 0 ≤ value then .ok (.literal value.toNat, rest) else .error ⟨.nonNegativeSize, tokens⟩
  | ⟨.identifier name, _, _, _⟩ :: rest => .ok (.named name, rest)
  | _ => .error ⟨.size, tokens⟩

/-! ## Repetition -/

/-- Reads items up to, but not including, a closing brace, at most `bound` of them. -/
def itemsUntilClose {α : Type} (item : List Token → Except Fault (Read α)) :
    (bound : Nat) → List Token → Except Fault (Read (List α))
  | 0, tokens => .error ⟨.symbol .closeBrace, tokens⟩
  | bound + 1, tokens =>
    if isAhead .closeBrace tokens then .ok ([], tokens)
    else do
      let (first, tokens) ← item tokens
      let (others, tokens) ← itemsUntilClose item bound tokens
      return (first :: others, tokens)

/-- Reads a body in braces: items between an opening brace, already read, and the
closing one. -/
def body {α : Type} (item : List Token → Except Fault (Read α)) (tokens : List Token) :
    Except Fault (Read (List α)) := do
  let (items, tokens) ← itemsUntilClose item (tokens.length + 1) tokens
  let tokens ← symbol .closeBrace tokens
  return (items, tokens)

end XdrBindings.Idl.Grammar
