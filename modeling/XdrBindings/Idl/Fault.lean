import XdrBindings.Idl.Token

/-!
# Faults against the grammar

A rule of the grammar either reads something from the tokens ahead or meets a fault:
what it asked for, together with the tokens ahead at that place. Nothing else is
needed to say where the fault is and what was found there instead.
-/

namespace XdrBindings.Idl

/-- What a rule of the grammar asks for. -/
inductive Expected
  | keyword (word : Keyword)
  | symbol (mark : Symbol)
  | identifier
  | number
  | size
  | nonNegativeSize
  | typeName
  | unsignedBase
  | enumValue
  | fieldOrClose
  | switchType
  | caseValue
  | caseOrDefault
  | inlineClose
  | definition
  deriving DecidableEq, Repr

/-- What was asked for, in words. -/
def Expected.describe : Expected → String
  | .keyword word => "keyword '" ++ word.spelling ++ "'"
  | .symbol mark => "symbol '" ++ String.singleton mark.char ++ "'"
  | .identifier => "an identifier"
  | .number => "a number"
  | .size => "a size (number or constant name)"
  | .nonNegativeSize => "a non-negative size"
  | .typeName => "a type name"
  | .unsignedBase => "'int' or 'hyper' after 'unsigned'"
  | .enumValue => "a number or a constant name"
  | .fieldOrClose => "a field or symbol '\x7d'"
  | .switchType => "a discriminant type ('int' or an enum name)"
  | .caseValue => "a case value"
  | .caseOrDefault => "'case' or 'default'"
  | .inlineClose => "symbol '\x7d' closing the inline body"
  | .definition => "'const', 'typedef', 'enum', 'struct' or 'union'"

/-- What a rule asked for, and the tokens ahead where it did. -/
structure Fault where
  expected : Expected
  ahead : List Token
  deriving DecidableEq, Repr

/-- What a rule gives when it succeeds: what it read, and the tokens left. -/
abbrev Read (α : Type) := α × List Token

end XdrBindings.Idl
