import XdrBindings.Idl.Declaration
import XdrBindings.Proofs.Idl.Spelling

/-!
# Printing declarations

Definitions are written as tokens, in the one way that the language has for each of them: the
primitive types by their reserved words, numbers in base ten, and the values of an enumeration with
commas between them.  A type written in place is written without its name.

Not every tree of declarations can be written.  `Definition.WellFormed` says which can: names are
words that are not reserved, numbers fit in 64 bits, and each type written in place has the name
that comes from the type around it and from its field.

## Main results

* `tokensOfFields_eq`, `tokensOfArms_eq` — bodies are written item by item.
* `Definition.unfolded_eq` — the types written in place stand in front of the definition that holds
  them, each behind those that it holds itself.
* `inlineName_ne_string` — no type written in place is taken for a string.
-/

namespace XdrBindings.Idl

/-! ## Types, shapes and labels -/

/-- The reserved words of a primitive type. -/
def Primitive.tokens : Primitive → List TokenKind
  | .int32 => [.keyword .int]
  | .uint32 => [.keyword .unsigned, .keyword .int]
  | .int64 => [.keyword .hyper]
  | .uint64 => [.keyword .unsigned, .keyword .hyper]
  | .float => [.keyword .float]
  | .double => [.keyword .double]
  | .bool => [.keyword .bool]
  | .string => [.keyword .string]
  | .opaqueData => [.keyword .opaqueData]
  | .void => [.keyword .void]

/-- A type by its recorded name. -/
def typeTokens (name : String) : List TokenKind :=
  match Primitive.all.find? fun primitive => primitive.name == name with
  | some primitive => primitive.tokens
  | none => [.identifier name]

/-- An array bound or the length of a string. -/
def Size.token : Size → TokenKind
  | .literal value => .number value
  | .named name => .identifier name

/-- The brackets behind a declared name. -/
def Shape.suffix : Shape → List TokenKind
  | .plain | .optional => []
  | .fixedArray size => [.symbol .openBracket, size.token, .symbol .closeBracket]
  | .variableArray none | .boundedString none => [.symbol .openAngle, .symbol .closeAngle]
  | .variableArray (some size) | .boundedString (some size) =>
    [.symbol .openAngle, size.token, .symbol .closeAngle]

theorem Shape.suffix_boundedString (bound : Option Size) :
    (boundedString bound).suffix = (variableArray bound).suffix := by
  cases bound <;> rfl

/-- A declared name with its star or its brackets. -/
def Shape.declared (shape : Shape) (name : String) : List TokenKind :=
  if shape.isOptional then [.symbol .star, .identifier name] else .identifier name :: shape.suffix

theorem Shape.declared_of_ne {shape : Shape} (h : shape ≠ .optional) (name : String) :
    shape.declared name = .identifier name :: shape.suffix := by
  cases shape with
  | optional => exact absurd rfl h
  | _ => rfl

/-- A label of an arm with its colon. -/
def CaseLabel.tokens : CaseLabel → List TokenKind
  | .named name => [.keyword .case, .identifier name, .symbol .colon]
  | .literal value => [.keyword .case, .number value, .symbol .colon]
  | .default => [.keyword .default, .symbol .colon]

/-- The type that a union switches on. -/
def SwitchType.tokens : SwitchType → List TokenKind
  | .int => [.keyword .int]
  | .unsignedInt => [.keyword .unsigned, .keyword .int]
  | .bool => [.keyword .bool]
  | .named name => [.identifier name]

/-- What a union switches on. -/
def Discriminant.tokens (switch : Discriminant) : List TokenKind :=
  .keyword .switch :: .symbol .openParen ::
    (switch.type.tokens ++ [.identifier switch.name, .symbol .closeParen])

/-- Tokens in braces. -/
def braced (kinds : List TokenKind) : List TokenKind :=
  .symbol .openBrace :: (kinds ++ [.symbol .closeBrace])

/-! ## Fields and unions -/

mutual

/-- A type in front of the name of a field. -/
def FieldType.tokens : FieldType → List TokenKind
  | .named name => typeTokens name
  | .struct declared => .keyword .struct :: declared.tokens
  | .union declared => .keyword .union :: declared.tokens

/-- A field. -/
def Field.tokens : Field → List TokenKind
  | ⟨name, type, shape, _⟩ => type.tokens ++ (shape.declared name ++ [.symbol .semicolon])

/-- The body of a structure. -/
def Struct.tokens : Struct → List TokenKind
  | ⟨_, fields, _⟩ => braced (tokensOfFields fields)

/-- An arm of a union. -/
def Arm.tokens : Arm → List TokenKind
  | ⟨labels, none, _⟩ =>
    labels.flatMap CaseLabel.tokens ++ [.keyword .void, .symbol .semicolon]
  | ⟨labels, some content, _⟩ => labels.flatMap CaseLabel.tokens ++ content.tokens

/-- What a union switches on and its body. -/
def Union.tokens : Union → List TokenKind
  | ⟨_, switch, arms, _⟩ => switch.tokens ++ braced (tokensOfArms arms)

/-- The fields of a structure. -/
def tokensOfFields : List Field → List TokenKind
  | [] => []
  | field :: rest => field.tokens ++ tokensOfFields rest

/-- The arms of a union. -/
def tokensOfArms : List Arm → List TokenKind
  | [] => []
  | arm :: rest => arm.tokens ++ tokensOfArms rest

end

theorem tokensOfFields_eq (fields : List Field) :
    tokensOfFields fields = fields.flatMap Field.tokens := by
  induction fields with
  | nil => rfl
  | cons field rest ih => rw [tokensOfFields, ih, List.flatMap_cons]

theorem tokensOfArms_eq (arms : List Arm) : tokensOfArms arms = arms.flatMap Arm.tokens := by
  induction arms with
  | nil => rfl
  | cons arm rest ih => rw [tokensOfArms, ih, List.flatMap_cons]

/-- A structure written in place: its fields in braces, its name and its shape. -/
theorem Field.tokens_struct (name type : String) (fields : List Field) (shape : Shape)
    (inner line : Nat) : (Field.mk name (.struct ⟨type, fields, inner⟩) shape line).tokens =
      .keyword .struct :: .symbol .openBrace :: (fields.flatMap Field.tokens ++
        .symbol .closeBrace :: (shape.declared name ++ [.symbol .semicolon])) := by
  simp [Field.tokens, FieldType.tokens, Struct.tokens, braced, tokensOfFields_eq]

/-- A union written in place: what it switches on, its arms in braces, its name and its shape. -/
theorem Field.tokens_union (name type : String) (switch : Discriminant) (arms : List Arm)
    (shape : Shape) (inner line : Nat) :
    (Field.mk name (.union ⟨type, switch, arms, inner⟩) shape line).tokens =
      .keyword .union :: (switch.tokens ++ .symbol .openBrace :: (arms.flatMap Arm.tokens ++
        .symbol .closeBrace :: (shape.declared name ++ [.symbol .semicolon]))) := by
  simp [Field.tokens, FieldType.tokens, Union.tokens, braced, tokensOfArms_eq]

/-! ## Definitions -/

/-- The right-hand side of an enumeration value. -/
def EnumSource.token : EnumSource → TokenKind
  | .literal value => .number value
  | .reference symbol _ => .identifier symbol

/-- A value of an enumeration. -/
def EnumValue.tokens (value : EnumValue) : List TokenKind :=
  [.identifier value.name, .symbol .assign, value.source.token]

/-- The values of an enumeration, with commas between them. -/
def tokensOfValues : List EnumValue → List TokenKind
  | [] => []
  | [value] => value.tokens
  | value :: next :: rest => value.tokens ++ .symbol .comma :: tokensOfValues (next :: rest)

/-- A definition. -/
def Definition.tokens : Definition → List TokenKind
  | .constant declared =>
    [.keyword .const, .identifier declared.name, .symbol .assign, .number declared.value,
      .symbol .semicolon]
  | .typedef declared =>
    .keyword .typedef :: (typeTokens declared.underlying ++
      (declared.shape.declared declared.name ++ [.symbol .semicolon]))
  | .enum declared =>
    .keyword .enum :: .identifier declared.name ::
      (braced (tokensOfValues declared.values) ++ [.symbol .semicolon])
  | .struct declared =>
    .keyword .struct :: .identifier declared.name :: (declared.tokens ++ [.symbol .semicolon])
  | .union declared =>
    .keyword .union :: .identifier declared.name :: (declared.tokens ++ [.symbol .semicolon])

/-- A file: its definitions one behind the other, in the braces of its namespace if it has one. -/
def fileTokens (nameSpace : Option String) (definitions : List Definition) : List TokenKind :=
  match nameSpace with
  | none => definitions.flatMap Definition.tokens
  | some name =>
    .keyword .nameSpace :: .identifier name :: braced (definitions.flatMap Definition.tokens)

/-! ## Trees that can be written -/

/-- Whether a name is one of a type: a word that is not reserved, or the recorded name of a
primitive type that values can have. -/
def IsTypeName (name : String) : Prop :=
  isIdentifier name = true ∨ ∃ primitive : Primitive, primitive ≠ .void ∧ name = primitive.name

/-- Whether a size is a name or a number of 63 bits. -/
def Size.WellFormed : Size → Prop
  | .literal value => value < 2 ^ 63
  | .named name => isIdentifier name = true

/-- Whether a shape can wrap a type with a name.  Angle brackets bound strings and make arrays of
everything else. -/
def Shape.Fits (type : String) : Shape → Prop
  | .plain => True
  | .optional => True
  | .fixedArray size => size.WellFormed
  | .variableArray bound => type ≠ Primitive.string.name ∧ ∀ size ∈ bound, size.WellFormed
  | .boundedString bound => type = Primitive.string.name ∧ ∀ size ∈ bound, size.WellFormed

/-- Whether a shape can wrap a type written in place, which is neither optional nor a string. -/
def Shape.FitsInline : Shape → Prop
  | .plain => True
  | .fixedArray size => size.WellFormed
  | .variableArray bound => ∀ size ∈ bound, size.WellFormed
  | .optional | .boundedString _ => False

theorem Shape.FitsInline.ne_optional {shape : Shape} (h : shape.FitsInline) :
    shape ≠ .optional := by
  rintro rfl
  exact h

theorem Shape.FitsInline.fits {shape : Shape} (h : shape.FitsInline) {type : String}
    (hType : type ≠ Primitive.string.name) : shape.Fits type := by
  cases shape with
  | variableArray bound => exact ⟨hType, h⟩
  | optional | boundedString => cases h
  | _ => exact h

/-- Whether a label is a name, a number of 64 bits or the default. -/
def CaseLabel.WellFormed : CaseLabel → Prop
  | .named name => isIdentifier name = true
  | .literal value => fitsWord value = true
  | .default => True

instance : DecidablePred CaseLabel.WellFormed
  | .named name => inferInstanceAs (Decidable (isIdentifier name = true))
  | .literal value => inferInstanceAs (Decidable (fitsWord value = true))
  | .default => .isTrue trivial

/-- Whether a type to switch on is a primitive one or has a name that is not reserved. -/
def SwitchType.WellFormed : SwitchType → Prop
  | .named name => isIdentifier name = true
  | _ => True

/-- Whether what a union switches on can be written. -/
structure Discriminant.WellFormed (switch : Discriminant) : Prop where
  name : isIdentifier switch.name = true
  type : switch.type.WellFormed

mutual

/-- Whether a field can be written in the type named `parent`. -/
inductive Field.WellFormed : (parent : String) → Field → Prop
  | named {parent name type : String} {shape : Shape} {line : Nat}
      (hName : isIdentifier name = true) (hType : IsTypeName type) (hShape : shape.Fits type) :
      Field.WellFormed parent ⟨name, .named type, shape, line⟩
  | struct {parent name : String} {fields : List Field} {shape : Shape} {inner line : Nat}
      (hName : isIdentifier name = true) (hShape : shape.FitsInline)
      (hFields : ∀ field ∈ fields, Field.WellFormed (inlineName parent name) field) :
      Field.WellFormed parent
        ⟨name, .struct ⟨inlineName parent name, fields, inner⟩, shape, line⟩
  | union {parent name : String} {switch : Discriminant} {arms : List Arm} {shape : Shape}
      {inner line : Nat} (hName : isIdentifier name = true) (hShape : shape.FitsInline)
      (hSwitch : switch.WellFormed)
      (hArms : ∀ arm ∈ arms, Arm.WellFormed (inlineName parent name) arm) :
      Field.WellFormed parent
        ⟨name, .union ⟨inlineName parent name, switch, arms, inner⟩, shape, line⟩

/-- Whether an arm can be written in the union named `parent`: it has a label. -/
inductive Arm.WellFormed : (parent : String) → Arm → Prop
  | void {parent : String} {labels : List CaseLabel} {line : Nat} (hSome : labels ≠ [])
      (hLabels : ∀ label ∈ labels, label.WellFormed) : Arm.WellFormed parent ⟨labels, none, line⟩
  | field {parent : String} {labels : List CaseLabel} {content : Field} {line : Nat}
      (hSome : labels ≠ []) (hLabels : ∀ label ∈ labels, label.WellFormed)
      (hContent : Field.WellFormed parent content) :
      Arm.WellFormed parent ⟨labels, some content, line⟩

end

/-- Whether the right-hand side of an enumeration value can be written: a number of 64 bits, or a
reference that nothing has been found for yet. -/
def EnumSource.WellFormed : EnumSource → Prop
  | .literal value => fitsWord value = true
  | .reference symbol resolved => isIdentifier symbol = true ∧ resolved = none

/-- Whether a value of an enumeration can be written. -/
structure EnumValue.WellFormed (value : EnumValue) : Prop where
  name : isIdentifier value.name = true
  source : value.source.WellFormed

/-- Whether a definition can be written. -/
inductive Definition.WellFormed : Definition → Prop
  | constant {name : String} {value : Int} {line : Nat} (hName : isIdentifier name = true)
      (hValue : fitsWord value = true) : Definition.WellFormed (.constant ⟨name, value, line⟩)
  | typedef {name underlying : String} {shape : Shape} {line : Nat}
      (hName : isIdentifier name = true) (hType : IsTypeName underlying)
      (hShape : shape.Fits underlying) :
      Definition.WellFormed (.typedef ⟨name, underlying, shape, line⟩)
  | enum {name : String} {values : List EnumValue} {line : Nat} (hName : isIdentifier name = true)
      (hValues : ∀ value ∈ values, value.WellFormed) :
      Definition.WellFormed (.enum ⟨name, values, line⟩)
  | struct {name : String} {fields : List Field} {line : Nat} (hName : isIdentifier name = true)
      (hFields : ∀ field ∈ fields, field.WellFormed name) :
      Definition.WellFormed (.struct ⟨name, fields, line⟩)
  | union {name : String} {switch : Discriminant} {arms : List Arm} {line : Nat}
      (hName : isIdentifier name = true) (hSwitch : switch.WellFormed)
      (hArms : ∀ arm ∈ arms, arm.WellFormed name) :
      Definition.WellFormed (.union ⟨name, switch, arms, line⟩)

/-! ## Declarations on one line -/

mutual

/-- A type with everything in it on one line. -/
def FieldType.onLine (line : Nat) : FieldType → FieldType
  | .named name => .named name
  | .struct declared => .struct (declared.onLine line)
  | .union declared => .union (declared.onLine line)

/-- A field on a line. -/
def Field.onLine (line : Nat) : Field → Field
  | ⟨name, type, shape, _⟩ => ⟨name, type.onLine line, shape, line⟩

/-- A structure on a line. -/
def Struct.onLine (line : Nat) : Struct → Struct
  | ⟨name, fields, _⟩ => ⟨name, fieldsOnLine line fields, line⟩

/-- An arm of a union on a line. -/
def Arm.onLine (line : Nat) : Arm → Arm
  | ⟨labels, none, _⟩ => ⟨labels, none, line⟩
  | ⟨labels, some content, _⟩ => ⟨labels, some (content.onLine line), line⟩

/-- A union on a line. -/
def Union.onLine (line : Nat) : Union → Union
  | ⟨name, switch, arms, _⟩ => ⟨name, switch, armsOnLine line arms, line⟩

/-- Fields on a line. -/
def fieldsOnLine (line : Nat) : List Field → List Field
  | [] => []
  | field :: rest => field.onLine line :: fieldsOnLine line rest

/-- Arms on a line. -/
def armsOnLine (line : Nat) : List Arm → List Arm
  | [] => []
  | arm :: rest => arm.onLine line :: armsOnLine line rest

end

theorem fieldsOnLine_eq (line : Nat) (fields : List Field) :
    fieldsOnLine line fields = fields.map (Field.onLine line) := by
  induction fields with
  | nil => rfl
  | cons field rest ih => rw [fieldsOnLine, ih, List.map_cons]

theorem armsOnLine_eq (line : Nat) (arms : List Arm) :
    armsOnLine line arms = arms.map (Arm.onLine line) := by
  induction arms with
  | nil => rfl
  | cons arm rest ih => rw [armsOnLine, ih, List.map_cons]

/-- A value of an enumeration on a line. -/
def EnumValue.onLine (line : Nat) (value : EnumValue) : EnumValue := { value with line }

/-- A definition with everything in it on one line. -/
def Definition.onLine (line : Nat) : Definition → Definition
  | .constant declared => .constant { declared with line }
  | .typedef declared => .typedef { declared with line }
  | .enum declared => .enum ⟨declared.name, declared.values.map (EnumValue.onLine line), line⟩
  | .struct declared => .struct (declared.onLine line)
  | .union declared => .union (declared.onLine line)

/-! ## Types written in place -/

/-- The definition that a type written in place is. -/
def FieldType.definition? : FieldType → Option Definition
  | .named _ => none
  | .struct declared => some (.struct declared)
  | .union declared => some (.union declared)

/-- The types written in place for the fields of a definition themselves, in their order. -/
def Definition.held : Definition → List Definition
  | .struct declared => declared.fields.filterMap fun field => field.type.definition?
  | .union declared => declared.arms.filterMap fun arm => arm.content.bind (·.type.definition?)
  | _ => []

theorem FieldType.inlined_eq (type : FieldType) :
    type.inlined = type.definition?.toList.flatMap Definition.unfolded := by
  cases type with
  | named name => rfl
  | struct declared => simp [inlined, definition?, Definition.unfolded, Definition.inlined]
  | union declared => simp [inlined, definition?, Definition.unfolded, Definition.inlined]

/-- Types written in place stand in front of the definition that holds them, in the order of its
fields and each behind those that it holds itself. -/
theorem Definition.unfolded_eq (definition : Definition) :
    definition.unfolded = definition.held.flatMap Definition.unfolded ++ [definition] := by
  have hFields (fields : List Field) : inlinedOfFields fields =
      (fields.filterMap fun field => field.type.definition?).flatMap Definition.unfolded := by
    induction fields with
    | nil => rfl
    | cons field rest ih =>
      obtain ⟨name, type, shape, line⟩ := field
      rw [inlinedOfFields, ih, Field.inlined, FieldType.inlined_eq, List.filterMap_cons]
      cases type.definition? <;> simp
  have hArms (arms : List Arm) : inlinedOfArms arms =
      (arms.filterMap fun arm => arm.content.bind (·.type.definition?)).flatMap
        Definition.unfolded := by
    induction arms with
    | nil => rfl
    | cons arm rest ih =>
      obtain ⟨labels, content, line⟩ := arm
      cases content with
      | none =>
        rw [inlinedOfArms, ih, Arm.inlined, List.filterMap_cons]
        rfl
      | some field =>
        obtain ⟨name, type, shape, line⟩ := field
        rw [inlinedOfArms, ih, Arm.inlined, Field.inlined, FieldType.inlined_eq,
          List.filterMap_cons, Option.bind_some]
        cases type.definition? <;> simp
  rw [unfolded]
  congr 1
  cases definition with
  | struct declared =>
    obtain ⟨name, fields, line⟩ := declared
    exact hFields fields
  | union declared =>
    obtain ⟨name, switch, arms, line⟩ := declared
    exact hArms arms
  | _ => rfl

/-! ## Names -/

theorem toList_inlineName (parent : String) {field : String} {first : Char} {rest : Text}
    (h : field.toList = first :: rest) :
    (inlineName parent field).toList = parent.toList ++ first.toUpper :: rest := by
  unfold inlineName
  rw [h]
  exact (String.toList_append ..).trans (congrArg _ (String.toList_ofList ..))

/-- The name of a type written in place holds what is no small letter. -/
theorem exists_mem_inlineName (parent : String) {field : String} (h : isIdentifier field = true) :
    ∃ c ∈ (inlineName parent field).toList, c.isLower = false := by
  obtain ⟨first, rest, hField, -⟩ := isIdentifier_iff.mp h
  refine ⟨first.toUpper, ?_, first.isLower_toUpper_eq_false⟩
  rw [toList_inlineName parent hField]
  exact List.mem_append_right _ List.mem_cons_self

theorem isLower_of_mem_spelling (word : Keyword) :
    ∀ c ∈ word.spelling.toList, c.isLower = true := by
  cases word <;> exact List.all_eq_true.mp rfl

/-- Reserved words have only small letters, so no type written in place has one as its name. -/
theorem ofWord?_inlineName (parent : String) {field : String} (h : isIdentifier field = true) :
    Keyword.ofWord? (inlineName parent field) = none := by
  cases hWord : Keyword.ofWord? (inlineName parent field) with
  | none => rfl
  | some word =>
    obtain ⟨c, hc, hLower⟩ := exists_mem_inlineName parent h
    rw [← Keyword.spelling_of_ofWord? hWord] at hc
    rw [isLower_of_mem_spelling word c hc] at hLower
    cases hLower

/-- A type written in place is not taken for a string. -/
theorem inlineName_ne_string (parent : String) {field : String} (h : isIdentifier field = true) :
    inlineName parent field ≠ Primitive.string.name := by
  intro hString
  have hWord : Keyword.ofWord? Primitive.string.name = some .string := by decide
  rw [← hString, ofWord?_inlineName parent h] at hWord
  cases hWord

end XdrBindings.Idl
