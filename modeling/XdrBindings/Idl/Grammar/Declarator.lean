import XdrBindings.Idl.Grammar.Basic

/-!
# Declarators, constants and enumerations

A declarator is a type, a name and how the name wraps the type. It is the whole of an
alias and the usual form of a field. Constants and enumerations have no declarator
and nest nothing.

## Main statements

* `angleShape_string`, `angleShape_of_ne`: angle brackets bound strings and make arrays
  of anything else.
-/

namespace XdrBindings.Idl.Grammar

/-! ## Types and declarators -/

/-- The primitive type that a single keyword stands for. -/
def primitiveOf? : Keyword → Option Primitive
  | .int => some .int32
  | .hyper => some .int64
  | .float => some .float
  | .double => some .double
  | .bool => some .bool
  | .string => some .string
  | .opaqueData => some .opaqueData
  | _ => none

/-- Reads a type and gives its recorded name. -/
def typeName (tokens : List Token) : Except Fault (Read String) :=
  match tokens with
  | ⟨.identifier name, _, _, _⟩ :: rest => .ok (name, rest)
  | ⟨.keyword .unsigned, _, _, _⟩ :: ⟨.keyword .int, _, _, _⟩ :: rest =>
    .ok (Primitive.uint32.name, rest)
  | ⟨.keyword .unsigned, _, _, _⟩ :: ⟨.keyword .hyper, _, _, _⟩ :: rest =>
    .ok (Primitive.uint64.name, rest)
  | ⟨.keyword .unsigned, _, _, _⟩ :: rest => .error ⟨.unsignedBase, rest⟩
  | ⟨.keyword word, _, _, _⟩ :: rest =>
    match primitiveOf? word with
    | some primitive => .ok (primitive.name, rest)
    | none => .error ⟨.typeName, tokens⟩
  | _ => .error ⟨.typeName, tokens⟩

/-- The shape of a type with angle brackets: strings are bounded, anything else is
an array. -/
def angleShape (type : String) (bound : Option Size) : Shape :=
  if type = Primitive.string.name then .boundedString bound else .variableArray bound

@[simp] theorem angleShape_string (bound : Option Size) :
    angleShape Primitive.string.name bound = .boundedString bound := by
  simp [angleShape]

theorem angleShape_of_ne {type : String} (h : type ≠ Primitive.string.name)
    (bound : Option Size) : angleShape type bound = .variableArray bound := by
  simp [angleShape, h]

/-- Reads the brackets behind a declared name, if there are any. -/
def suffix (type : String) (tokens : List Token) : Except Fault (Read Shape) :=
  if isAhead .openBracket tokens then do
    let (bound, tokens) ← size tokens.tail
    let tokens ← symbol .closeBracket tokens
    return (.fixedArray bound, tokens)
  else if isAhead .openAngle tokens then
    if isAhead .closeAngle tokens.tail then
      return (angleShape type none, tokens.tail.tail)
    else do
      let (bound, tokens) ← size tokens.tail
      let tokens ← symbol .closeAngle tokens
      return (angleShape type (some bound), tokens)
  else
    return (.plain, tokens)

/-- A type, a name and how the name wraps the type. -/
structure Declarator where
  type : String
  name : String
  shape : Shape
  deriving DecidableEq, Repr

/-- Reads a type, a name and its brackets or star, up to the semicolon. -/
def declarator (tokens : List Token) : Except Fault (Read Declarator) := do
  let (type, tokens) ← typeName tokens
  if isAhead .star tokens then
    let (name, tokens) ← identifier tokens.tail
    let tokens ← symbol .semicolon tokens
    return (⟨type, name, .optional⟩, tokens)
  else
    let (name, tokens) ← identifier tokens
    let (shape, tokens) ← suffix type tokens
    let tokens ← symbol .semicolon tokens
    return (⟨type, name, shape⟩, tokens)

/-! ## Constants, typedefs and enumerations -/

/-- Reads a constant behind its keyword. -/
def constant (line : Nat) (tokens : List Token) : Except Fault (Read Constant) := do
  let (name, tokens) ← identifier tokens
  let tokens ← symbol .assign tokens
  let (value, tokens) ← number tokens
  let tokens ← symbol .semicolon tokens
  return (⟨name, value, line⟩, tokens)

/-- Reads a typedef behind its keyword. -/
def typedef (line : Nat) (tokens : List Token) : Except Fault (Read Typedef) := do
  let (⟨type, name, shape⟩, tokens) ← declarator tokens
  return (⟨name, type, shape, line⟩, tokens)

/-- Reads the right-hand side of an enumeration value. -/
def enumSource (tokens : List Token) : Except Fault (Read EnumSource) :=
  match tokens with
  | ⟨.number value, _, _, _⟩ :: rest => .ok (.literal value, rest)
  | ⟨.identifier symbol, _, _, _⟩ :: rest => .ok (.reference symbol none, rest)
  | _ => .error ⟨.enumValue, tokens⟩

/-- Reads one enumeration value and the comma behind it, if there is one. -/
def enumValue (tokens : List Token) : Except Fault (Read EnumValue) := do
  let line := lineAhead tokens
  let (name, tokens) ← identifier tokens
  let tokens ← symbol .assign tokens
  let (source, tokens) ← enumSource tokens
  return (⟨name, source, line⟩, if isAhead .comma tokens then tokens.tail else tokens)

/-- Reads an enumeration behind its keyword. -/
def enum (line : Nat) (tokens : List Token) : Except Fault (Read Enum) := do
  let (name, tokens) ← identifier tokens
  let tokens ← symbol .openBrace tokens
  let (values, tokens) ← body enumValue tokens
  let tokens ← symbol .semicolon tokens
  return (⟨name, values, line⟩, tokens)

end XdrBindings.Idl.Grammar
