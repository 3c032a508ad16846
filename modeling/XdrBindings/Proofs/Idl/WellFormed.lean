import XdrBindings.Proofs.Idl.Promoted
import XdrBindings.Proofs.Idl.Yields

/-!
# What is read is well-formed

A definition that is read can be written, and so can every type written in place within it, as a
definition of its own.  The name of such a type is no reserved word: these have only small letters,
and the part of the name that comes from the field begins with a letter in upper case or with an
underscore.  So angle brackets behind such a type never make a string of it.

## Main results

* `isIdentifier_inlineName` — the name of a type written in place is not reserved.
* `wellFormed_of_parse` — names, types, shapes and labels of a file that has been read.
-/

namespace XdrBindings.Idl

/-! ## Names of types written in place -/

theorem begins_toUpper {c : Char} (h : (c.isAlpha || c == '_') = true) :
    (c.toUpper.isAlpha || c.toUpper == '_') = true := by
  simp only [Bool.or_eq_true, beq_iff_eq] at h ⊢
  rcases h with hAlpha | rfl
  · exact .inl (c.isAlpha_toUpper_eq_isAlpha.trans hAlpha)
  · exact .inr rfl

/-- A type written in place has a name as other types have. -/
theorem isIdentifier_inlineName {parent field : String} (hParent : isIdentifier parent = true)
    (hField : isIdentifier field = true) : isIdentifier (inlineName parent field) = true := by
  obtain ⟨first, rest, hOuter, hFirst, hRest, -⟩ := isIdentifier_iff.mp hParent
  obtain ⟨initial, others, hInner, hInitial, hOthers, -⟩ := isIdentifier_iff.mp hField
  have hName : (inlineName parent field).toList =
      first :: (rest ++ initial.toUpper :: others) := by
    rw [toList_inlineName parent hInner, hOuter]
    rfl
  refine isIdentifier_iff.mpr ⟨first, _, hName, hFirst, fun c hc => ?_,
    ofWord?_inlineName parent hField⟩
  rcases List.mem_append.mp hc with hFront | hBack
  · exact hRest c hFront
  rcases List.mem_cons.mp hBack with rfl | hLater
  · exact isWordChar_of_begins (begins_toUpper hInitial)
  · exact hOthers c hLater

namespace Definition

variable {definition node : Definition}

namespace WellFormed

theorem name (h : definition.WellFormed) : isIdentifier definition.name = true := by
  cases h <;> assumption

theorem fields (h : definition.WellFormed) :
    ∀ field ∈ definition.fields, field.WellFormed definition.name := by
  cases h with
  | struct _ hFields => exact hFields
  | @union name switch arms line _ _ hArms =>
    intro field hField
    obtain ⟨arm, hArm, hContent⟩ := List.mem_filterMap.mp hField
    cases hArms arm hArm with
    | void => cases hContent
    | field _ _ hWellFormed =>
      cases hContent
      exact hWellFormed
  | _ => exact List.forall_mem_nil _

/-- A type written in place is well-formed as a definition of its own. -/
theorem of_mem_held (h : definition.WellFormed) (hNode : node ∈ definition.held) :
    node.WellFormed := by
  obtain ⟨field, hField, hNode⟩ := mem_held_iff.mp hNode
  cases h.fields field hField with
  | named => cases hNode
  | struct hName _ hFields =>
    cases hNode
    exact .struct (isIdentifier_inlineName h.name hName) hFields
  | union hName _ hSwitch hArms =>
    cases hNode
    exact .union (isIdentifier_inlineName h.name hName) hSwitch hArms

theorem of_encloses (h : definition.WellFormed) (hNode : definition.Encloses node) :
    node.WellFormed := by
  induction hNode with
  | self => exact h
  | held _ hHeld ih => exact ih.of_mem_held hHeld

end WellFormed

end Definition

/-! ## Names, types and shapes -/

/-- The bound or the length in a shape, if it has one. -/
def Shape.size? : Shape → Option Size
  | .plain | .optional => none
  | .fixedArray size => some size
  | .variableArray bound | .boundedString bound => bound

/-- What holds of the name, the type and the shape of a typedef or of a field: the name is free, the
type is not `void`, angle brackets bound strings and make arrays of everything else, and a number in
brackets has 63 bits. -/
structure IsDeclared (name type : String) (shape : Shape) : Prop where
  name_free : isIdentifier name = true
  type_ne_void : type ≠ Primitive.void.name
  string : ∀ bound, shape = .boundedString bound → type = Primitive.string.name
  array : ∀ bound, shape = .variableArray bound → type ≠ Primitive.string.name
  size_lt : ∀ value, shape.size? = some (.literal value) → value < 2 ^ 63

theorem IsTypeName.ne_void {type : String} (h : IsTypeName type) :
    type ≠ Primitive.void.name := by
  rintro rfl
  rcases h with hWord | ⟨primitive, hPrimitive, hName⟩
  · cases hWord
  · have hFound := primitive.ofName?_name
    rw [← hName, Primitive.ofName?_name] at hFound
    exact hPrimitive (Option.some.inj hFound).symm

theorem Shape.Fits.wellFormed_of_size? {type : String} {shape : Shape} (h : shape.Fits type)
    {size : Size} (hSize : shape.size? = some size) : size.WellFormed := by
  cases shape with
  | plain | optional => cases hSize
  | fixedArray =>
    cases hSize
    exact h
  | variableArray | boundedString => exact h.2 size hSize

theorem Shape.Fits.isDeclared {name type : String} {shape : Shape} (h : shape.Fits type)
    (hName : isIdentifier name = true) (hType : type ≠ Primitive.void.name) :
    IsDeclared name type shape where
  name_free := hName
  type_ne_void := hType
  string := by
    rintro bound rfl
    exact h.1
  array := by
    rintro bound rfl
    exact h.1
  size_lt _ hSize := h.wellFormed_of_size? hSize

/-- What holds of a definition and of its own fields and arms: names are free, the types and shapes
of typedefs and fields go together, a type written in place has the name that comes from the type
around it and is neither optional nor a string, and an arm has a label. -/
structure Definition.IsAdmissible (definition : Definition) : Prop where
  name_free : isIdentifier definition.name = true
  typedef : ∀ declared, definition = .typedef declared →
    IsDeclared declared.name declared.underlying declared.shape
  field : ∀ field ∈ definition.fields, IsDeclared field.name field.type.name field.shape
  inline : ∀ field ∈ definition.fields, ∀ node, field.type.definition? = some node →
    node.name = inlineName definition.name field.name ∧
      field.shape ≠ .optional ∧ ∀ bound, field.shape ≠ .boundedString bound
  arm : ∀ declared, definition = .union declared → ∀ arm ∈ declared.arms, arm.labels ≠ []

theorem Shape.FitsInline.ne_boundedString {shape : Shape} (h : shape.FitsInline)
    (bound : Option Size) : shape ≠ .boundedString bound := by
  rintro rfl
  exact h

/-- A field of a well-formed type declares its name, whichever way its type is given. -/
theorem Field.WellFormed.isDeclared {parent : String} {field : Field}
    (h : field.WellFormed parent) (hParent : isIdentifier parent = true) :
    IsDeclared field.name field.type.name field.shape := by
  have hInline {name : String} {shape : Shape} (hName : isIdentifier name = true)
      (hShape : shape.FitsInline) : IsDeclared name (inlineName parent name) shape := by
    have hType : IsTypeName (inlineName parent name) :=
      .inl (isIdentifier_inlineName hParent hName)
    exact (hShape.fits (inlineName_ne_string parent hName)).isDeclared hName hType.ne_void
  cases h with
  | named hName hType hShape => exact hShape.isDeclared hName hType.ne_void
  | struct hName hShape => exact hInline hName hShape
  | union hName hShape => exact hInline hName hShape

theorem Field.WellFormed.of_definition? {parent : String} {field : Field} {node : Definition}
    (h : field.WellFormed parent) (hNode : field.type.definition? = some node) :
    node.name = inlineName parent field.name ∧ field.shape.FitsInline := by
  cases h with
  | named => cases hNode
  | struct _ hShape | union _ hShape =>
    cases hNode
    exact ⟨rfl, hShape⟩

theorem Definition.WellFormed.isAdmissible {definition : Definition} (h : definition.WellFormed) :
    definition.IsAdmissible where
  name_free := h.name
  typedef := by
    rintro declared rfl
    cases h with
    | typedef hName hType hShape => exact hShape.isDeclared hName hType.ne_void
  field field hField := (h.fields field hField).isDeclared h.name
  inline field hField node hNode := by
    obtain ⟨hName, hShape⟩ := (h.fields field hField).of_definition? hNode
    exact ⟨hName, hShape.ne_optional, hShape.ne_boundedString⟩
  arm := by
    rintro declared rfl arm hArm
    cases h with
    | union _ _ hArms => cases hArms arm hArm <;> assumption

section

variable {ink : Ink} {filename : String} {source : Text} {file : File}

/-- What is written in place within a definition of a file is one of its definitions as well. -/
theorem mem_definitions_of_encloses (h : parse ink filename source = .ok file)
    {definition node : Definition} (hDefinition : definition ∈ file.definitions)
    (hNode : definition.Encloses node) : node ∈ file.definitions := by
  obtain ⟨tokens, -, -, found, behind, -, hDefinitions⟩ := exists_of_parse h
  rw [hDefinitions] at hDefinition ⊢
  obtain ⟨outer, hOuter, hUnfolded⟩ := List.mem_flatMap.mp hDefinition
  have hEncloses : outer.Encloses node := (mem_unfolded_iff.mp hUnfolded).trans hNode
  exact List.mem_flatMap.mpr ⟨outer, hOuter, mem_unfolded_iff.mpr hEncloses⟩

theorem wellFormed_of_mem_definitions (h : parse ink filename source = .ok file)
    {definition : Definition} (hDefinition : definition ∈ file.definitions) :
    definition.WellFormed := by
  obtain ⟨tokens, hTokens, hKinds, found, behind, hFile, hDefinitions⟩ := exists_of_parse h
  rw [hDefinitions] at hDefinition
  obtain ⟨outer, hOuter, hUnfolded⟩ := List.mem_flatMap.mp hDefinition
  have hFound := hFile.wellFormed (Grammar.areWritable_of_tokenize hTokens hKinds)
  exact (hFound outer hOuter).of_encloses (mem_unfolded_iff.mp hUnfolded)

/-- Everything that is defined in a source that can be read, and everything written in place within
it, is listed among the definitions, can be written, and is admissible. -/
theorem wellFormed_of_parse (h : parse ink filename source = .ok file) :
    ∀ definition ∈ file.definitions, ∀ node, definition.Encloses node →
      node ∈ file.definitions ∧ node.WellFormed ∧ node.IsAdmissible := by
  intro definition hDefinition node hEncloses
  have hNode : node ∈ file.definitions := mem_definitions_of_encloses h hDefinition hEncloses
  have hWellFormed : node.WellFormed := wellFormed_of_mem_definitions h hNode
  exact ⟨hNode, hWellFormed, hWellFormed.isAdmissible⟩

end

/-- A source with an array of a type written in place, whose name differs from that of strings in
one letter. -/
def almostString : Text := "struct s \x7b struct \x7b string t<7>; \x7d tring<>; \x7d;".toList

theorem wellFormed_of_parse_almostString : ∃ file outer node,
    parse .plain "a.x" almostString = .ok file ∧ outer ∈ file.definitions ∧
      outer.Encloses node ∧ node.name = "sTring" ∧
      node ∈ file.definitions ∧ node.WellFormed ∧ node.IsAdmissible := by
  have hParse : (parse .plain "a.x" almostString).toOption.map
      (fun file => file.definitions.map fun definition =>
        (definition.name, definition.held.map Definition.name)) =
        some [("sTring", []), ("s", ["sTring"])] := by decide +kernel
  obtain ⟨file, hFile, hNames⟩ := Option.map_eq_some_iff.mp hParse
  have hFile := eq_ok_of_mem_toOption hFile
  have hMem : ("s", ["sTring"]) ∈ file.definitions.map fun definition =>
      (definition.name, definition.held.map Definition.name) := by
    rw [hNames]
    exact .tail _ (.head _)
  obtain ⟨outer, hOuter, hPair⟩ := List.mem_map.mp hMem
  have hInner : "sTring" ∈ outer.held.map Definition.name := by
    rw [(Prod.mk.inj hPair).2]
    exact .head _
  obtain ⟨node, hHeld, hName⟩ := List.mem_map.mp hInner
  have hNode : outer.Encloses node := .held .self hHeld
  exact ⟨file, outer, node, hFile, hOuter, hNode, hName,
    wellFormed_of_parse hFile outer hOuter node hNode⟩

end XdrBindings.Idl
