import XdrBindings.Idl.Grammar.Declarator

/-!
# Fields, structures and unions

A field may have a structure or a union written in place. Such a type gets its name
before its body is read, from the field name behind the body, which `nameBehind` finds
by counting braces.

Bodies nest, so `field` recurses on a bound for the depth of nesting. The number of
tokens ahead is such a bound, because each level of nesting takes at least one token.

## Main statements

* `label?_length_lt`: a case label takes at least one token.
-/

namespace XdrBindings.Idl.Grammar

/-! ## Unions -/

/-- Reads the type in the parentheses of a switch. -/
def switchType (tokens : List Token) : Except Fault (Read SwitchType) :=
  match tokens with
  | ⟨.keyword .int, _, _, _⟩ :: rest => .ok (.int, rest)
  | ⟨.keyword .unsigned, _, _, _⟩ :: rest => do
    let rest ← keyword .int rest
    return (.unsignedInt, rest)
  | ⟨.keyword .bool, _, _, _⟩ :: rest => .ok (.bool, rest)
  | ⟨.identifier name, _, _, _⟩ :: rest => .ok (.named name, rest)
  | _ => .error ⟨.switchType, tokens⟩

/-- Reads what a union switches on. -/
def discriminant (tokens : List Token) : Except Fault (Read Discriminant) := do
  let tokens ← keyword .switch tokens
  let tokens ← symbol .openParen tokens
  let (type, tokens) ← switchType tokens
  let (name, tokens) ← identifier tokens
  let tokens ← symbol .closeParen tokens
  return (⟨name, type⟩, tokens)

/-- Reads the number or name of a case. -/
def caseValue (tokens : List Token) : Except Fault (Read CaseLabel) :=
  match tokens with
  | ⟨.number value, _, _, _⟩ :: rest => .ok (.literal value, rest)
  | ⟨.identifier name, _, _, _⟩ :: rest => .ok (.named name, rest)
  | _ => .error ⟨.caseValue, tokens⟩

/-- Reads one label with its colon, if one is ahead. -/
def label? (tokens : List Token) : Except Fault (Option (CaseLabel × List Token)) :=
  if isKeywordAhead .default tokens then do
    let rest ← symbol .colon tokens.tail
    return some (.default, rest)
  else if isKeywordAhead .case tokens then do
    let (label, rest) ← caseValue tokens.tail
    let rest ← symbol .colon rest
    return some (label, rest)
  else
    return none

theorem caseValue_length {tokens rest : List Token} {label : CaseLabel}
    (h : caseValue tokens = .ok (label, rest)) : rest.length + 1 = tokens.length := by
  unfold caseValue at h
  split at h <;> cases h <;> rfl

theorem label?_length_lt {tokens rest : List Token} {label : CaseLabel}
    (h : label? tokens = .ok (some (label, rest))) : rest.length < tokens.length := by
  simp only [label?, bind, Except.bind, pure, Except.pure] at h
  have hTail := tokens.length_tail
  split at h
  · split at h
    · cases h
    · rename_i hColon
      cases h
      have := symbol_length hColon
      omega
  · split at h
    · split at h
      · cases h
      · rename_i hValue
        split at h
        · cases h
        · rename_i hColon
          cases h
          have := symbol_length hColon
          have := caseValue_length hValue
          omega
    · cases h

/-- Reads all labels ahead. -/
def labels (tokens : List Token) : Except Fault (Read (List CaseLabel)) :=
  match _ : label? tokens with
  | .error fault => .error fault
  | .ok none => .ok ([], tokens)
  | .ok (some (label, rest)) => do
    let (others, rest) ← labels rest
    return (label :: others, rest)
termination_by tokens.length
decreasing_by exact label?_length_lt ‹label? tokens = _›

/-- Reads an arm of a union, where `field` reads its content. -/
def arm (field : List Token → Except Fault (Read Field)) (tokens : List Token) :
    Except Fault (Read Arm) := do
  let line := lineAhead tokens
  let (labels, tokens) ← labels tokens
  if labels.isEmpty then .error ⟨.caseOrDefault, tokens⟩
  else if isKeywordAhead .void tokens then
    let tokens ← symbol .semicolon tokens.tail
    return (⟨labels, none, line⟩, tokens)
  else
    let (content, tokens) ← field tokens
    return (⟨labels, some content, line⟩, tokens)

/-! ## Fields -/

/-- The name behind the brace that closes the body ahead, `depth` braces being open
within it. Nothing is taken. -/
def nameBehind (depth : Nat) : List Token → Except Fault String
  | [] => .error ⟨.inlineClose, []⟩
  | token :: rest =>
    if token.kind = .symbol .openBrace then nameBehind (depth + 1) rest
    else if token.kind = .symbol .closeBrace then
      match depth with
      | 0 => (identifier rest).map Prod.fst
      | depth + 1 => nameBehind depth rest
    else nameBehind depth rest

/-- Reads a field of a structure, where `field` reads it; the tokens must not end
here. -/
def structItem (field : List Token → Except Fault (Read Field)) (tokens : List Token) :
    Except Fault (Read Field) :=
  if tokens.isEmpty then .error ⟨.fieldOrClose, tokens⟩ else field tokens

/-- Reads what stands behind the body of a type written in place. -/
def inlineTail (type : String) (tokens : List Token) : Except Fault (Read Shape) := do
  let (_, tokens) ← identifier tokens
  let (shape, tokens) ← suffix type tokens
  let tokens ← symbol .semicolon tokens
  return (shape, tokens)

/-- Reads a field of the type named `parent`, in which types written in place nest
at most `depth` deep. -/
def field : (depth : Nat) → (parent : String) → List Token → Except Fault (Read Field)
  | 0, _, tokens => .error ⟨.typeName, tokens⟩
  | depth + 1, parent, tokens =>
    let line := lineAhead tokens
    if isKeywordAhead .struct tokens && isAhead .openBrace tokens.tail then do
      let tokens := tokens.tail.tail
      let name ← nameBehind 0 tokens
      let type := inlineName parent name
      let (fields, tokens) ← body (structItem (field depth type)) tokens
      let (shape, tokens) ← inlineTail type tokens
      return (⟨name, .struct ⟨type, fields, line⟩, shape, line⟩, tokens)
    else if isKeywordAhead .union tokens then do
      let (switch, tokens) ← discriminant tokens.tail
      let tokens ← symbol .openBrace tokens
      let name ← nameBehind 0 tokens
      let type := inlineName parent name
      let (arms, tokens) ← body (arm (field depth type)) tokens
      let (shape, tokens) ← inlineTail type tokens
      return (⟨name, .union ⟨type, switch, arms, line⟩, shape, line⟩, tokens)
    else do
      let (⟨type, name, shape⟩, tokens) ← declarator tokens
      return (⟨name, .named type, shape, line⟩, tokens)

/-- Reads a structure behind its keyword. -/
def struct (line : Nat) (tokens : List Token) : Except Fault (Read Struct) := do
  let (name, tokens) ← identifier tokens
  let tokens ← symbol .openBrace tokens
  let (fields, tokens) ← body (structItem (field tokens.length name)) tokens
  let tokens ← symbol .semicolon tokens
  return (⟨name, fields, line⟩, tokens)

/-- Reads a union behind its keyword. -/
def union (line : Nat) (tokens : List Token) : Except Fault (Read Union) := do
  let (name, tokens) ← identifier tokens
  let (switch, tokens) ← discriminant tokens
  let tokens ← symbol .openBrace tokens
  let (arms, tokens) ← body (arm (field tokens.length name)) tokens
  let tokens ← symbol .semicolon tokens
  return (⟨name, switch, arms, line⟩, tokens)

end XdrBindings.Idl.Grammar
