import Mathlib
import XdrBindings.Idl.Token

/-!
# The words of the interface language

The grammar as languages over the kinds of tokens: `*` puts words one behind the other, `+` gives a
choice, `1` is the empty word and `∗` repeats.  Only fields and the arms of unions hold each other,
and their words are defined by induction; `field_eq` and `arm_eq` are the equations that a grammar
would have for them.

## Main results

* `field_eq`, `arm_eq` — the words of fields and arms in terms of each other.
-/

namespace XdrBindings.Idl.Words

open scoped Computability

/-! ## Single tokens -/

/-- The words of one token of some kinds. -/
def oneOf (kinds : TokenKind → Prop) : Language TokenKind :=
  {word | ∃ kind, kinds kind ∧ word = [kind]}

/-- A punctuation mark. -/
def symbol (mark : Symbol) : Language TokenKind := oneOf (· = .symbol mark)

/-- A reserved word. -/
def keyword (word : Keyword) : Language TokenKind := oneOf (· = .keyword word)

/-- A name. -/
def identifier : Language TokenKind := oneOf fun kind => ∃ name, kind = .identifier name

/-- A number. -/
def number : Language TokenKind := oneOf fun kind => ∃ value, kind = .number value

/-- An array bound or a string length: a name or a number that is not negative. -/
def size : Language TokenKind :=
  identifier + oneOf fun kind => ∃ value, 0 ≤ value ∧ kind = .number value

/-- The end of the source. -/
def finish : Language TokenKind := oneOf (· = .finish)

/-! ## Declarators, constants and enumerations -/

/-- A type. -/
def type : Language TokenKind :=
  identifier + (1 + keyword .unsigned) * (keyword .int + keyword .hyper) + keyword .float +
    keyword .double + keyword .bool + keyword .string + keyword .opaqueData

/-- The brackets behind a declared name, if there are any. -/
def suffix : Language TokenKind :=
  1 + symbol .openBracket * size * symbol .closeBracket +
    symbol .openAngle * size * symbol .closeAngle + symbol .openAngle * symbol .closeAngle

/-- A type and a name with a star or brackets. -/
def declarator : Language TokenKind := type * (symbol .star * identifier + identifier * suffix)

/-- A constant behind its keyword. -/
def constant : Language TokenKind := identifier * symbol .assign * number * symbol .semicolon

/-- A typedef behind its keyword, or a field of a named type. -/
def declaration : Language TokenKind := declarator * symbol .semicolon

/-- A value of an enumeration with its comma, if there is one. -/
def enumValue : Language TokenKind :=
  identifier * symbol .assign * (number + identifier) * (1 + symbol .comma)

/-- Items in braces. -/
def braced (items : Language TokenKind) : Language TokenKind :=
  symbol .openBrace * items * symbol .closeBrace

/-- An enumeration behind its keyword. -/
def enum : Language TokenKind := identifier * braced enumValue∗ * symbol .semicolon

/-! ## Fields and unions -/

/-- What a union switches on. -/
def discriminant : Language TokenKind :=
  keyword .switch * symbol .openParen *
    (keyword .int + keyword .unsigned * keyword .int + keyword .bool + identifier) * identifier *
      symbol .closeParen

/-- A label of an arm. -/
def label : Language TokenKind :=
  (keyword .case * (number + identifier) + keyword .default) * symbol .colon

/-- What stands behind the body of a type written in place. -/
def inlineTail : Language TokenKind := identifier * suffix * symbol .semicolon

mutual

/-- The words of a field: of a named type, or of a structure or a union written in place. -/
inductive Field : List TokenKind → Prop
  | declared {word : List TokenKind} (hWord : word ∈ declaration) : Field word
  | struct {fields : List (List TokenKind)} {word : List TokenKind}
      (hFields : ∀ part ∈ fields, Field part)
      (hWord : word ∈ keyword .struct * braced {fields.flatten} * inlineTail) : Field word
  | union {arms : List (List TokenKind)} {word : List TokenKind}
      (hArms : ∀ part ∈ arms, Arm part)
      (hWord : word ∈ keyword .union * discriminant * braced {arms.flatten} * inlineTail) :
      Field word

/-- The words of an arm: one or more labels, and a field or nothing behind them. -/
inductive Arm : List TokenKind → Prop
  | void {word : List TokenKind}
      (hWord : word ∈ label * label∗ * (keyword .void * symbol .semicolon)) : Arm word
  | field {content word : List TokenKind} (hContent : Field content)
      (hWord : word ∈ label * label∗ * {content}) : Arm word

end

/-- A field of a structure or the content of an arm. -/
def field : Language TokenKind := {word | Field word}

/-- An arm of a union. -/
def arm : Language TokenKind := {word | Arm word}

/-- Repetition as a union over lists of words. -/
theorem kstar_eq_iSup (words : Language TokenKind) :
    words∗ = ⨆ parts : {parts : List (List TokenKind) // ∀ part ∈ parts, part ∈ words},
      ({parts.val.flatten} : Language TokenKind) := by
  ext word
  simp only [Language.mem_kstar, Language.mem_iSup, Subtype.exists]
  constructor
  · rintro ⟨parts, hWord, hParts⟩
    exact ⟨parts, hParts, hWord⟩
  · rintro ⟨parts, hParts, hWord⟩
    exact ⟨parts, hWord, hParts⟩

theorem braced_iSup {ι : Type} (items : ι → Language TokenKind) :
    braced (⨆ i, items i) = ⨆ i, braced (items i) := by
  simp only [braced, Language.mul_iSup, Language.iSup_mul]

theorem field_eq : field =
    declaration + keyword .struct * braced field∗ * inlineTail +
      keyword .union * discriminant * braced arm∗ * inlineTail := by
  ext word
  rw [kstar_eq_iSup, kstar_eq_iSup, braced_iSup, braced_iSup]
  simp only [Language.mul_iSup, Language.iSup_mul, Language.mem_add, Language.mem_iSup,
    Subtype.exists]
  constructor
  · rintro (hWord | ⟨hFields, hWord⟩ | ⟨hArms, hWord⟩)
    · exact .inl (.inl hWord)
    · exact .inl (.inr ⟨_, hFields, hWord⟩)
    · exact .inr ⟨_, hArms, hWord⟩
  · rintro ((hWord | ⟨fields, hFields, hWord⟩) | ⟨arms, hArms, hWord⟩)
    · exact .declared hWord
    · exact .struct hFields hWord
    · exact .union hArms hWord

theorem arm_eq : arm = label * label∗ * (keyword .void * symbol .semicolon + field) := by
  ext word
  rw [mul_add, Language.mem_add]
  constructor
  · rintro (hWord | ⟨hContent, hWord⟩)
    · exact .inl hWord
    · obtain ⟨front, hFront, content, rfl, rfl⟩ := Language.mem_mul.mp hWord
      exact .inr (Language.append_mem_mul hFront hContent)
  · rintro (hWord | hWord)
    · exact .void hWord
    · obtain ⟨front, hFront, content, hContent, rfl⟩ := Language.mem_mul.mp hWord
      exact .field hContent (Language.append_mem_mul hFront rfl)

/-! ## Files -/

/-- A structure behind its keyword. -/
def struct : Language TokenKind := identifier * braced field∗ * symbol .semicolon

/-- A union behind its keyword. -/
def union : Language TokenKind := identifier * discriminant * braced arm∗ * symbol .semicolon

/-- A definition of a file. -/
def definition : Language TokenKind :=
  keyword .const * constant + keyword .typedef * declaration + keyword .enum * enum +
    keyword .struct * struct + keyword .union * union

/-- What a file holds: a stray semicolon or a definition. -/
def item : Language TokenKind := symbol .semicolon + definition

/-- A file up to the end of its tokens.  In a namespace a closing brace ends the file, and anything
may stand behind it. -/
def file : Language TokenKind :=
  item∗ * finish +
    keyword .nameSpace * identifier * symbol .openBrace * item∗ *
      (finish + symbol .closeBrace * (1 + symbol .semicolon) * ⊤)

end XdrBindings.Idl.Words
