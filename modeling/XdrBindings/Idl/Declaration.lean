/-!
# Declarations of the interface language

A file declares constants, type aliases, enumerations, structures and unions. A
field of a structure, and an arm of a union, has a type, which is a name or a
structure or union written in place, and a shape, which says how the type is
wrapped.

Types written in place have a name too: the name of the type around them followed
by the name of their field (`inlineName`). They are listed among the definitions of
the file before the definition that holds them.

## Main statements

* `Primitive.ofName?_name`, `Primitive.ofName?_spelling`: a primitive type is
  recognised by its recorded name and by the words of the language.
* `File.total_eq_length`: every definition is of exactly one sort.
-/

namespace XdrBindings.Idl

/-! ## Types -/

/-- The types the language provides. -/
inductive Primitive
  | int32 | uint32 | int64 | uint64 | float | double | bool | string | opaqueData | void
  deriving DecidableEq, Repr

namespace Primitive

/-- The name that a field or an alias records for a primitive type. -/
def name : Primitive → String
  | int32 => "int32"
  | uint32 => "uint32"
  | int64 => "int64"
  | uint64 => "uint64"
  | float => "float"
  | double => "double"
  | bool => "bool"
  | string => "string"
  | opaqueData => "opaque"
  | void => "void"

/-- How the language writes a primitive type. -/
def spelling : Primitive → String
  | int32 => "int"
  | uint32 => "unsigned int"
  | int64 => "hyper"
  | uint64 => "unsigned hyper"
  | other => other.name

/-- Every primitive type once. -/
def all : List Primitive :=
  [int32, uint32, int64, uint64, float, double, bool, string, opaqueData, void]

/-- The primitive type with a given recorded name or spelling. -/
def ofName? (name : String) : Option Primitive :=
  all.find? fun primitive => primitive.name == name || primitive.spelling == name

theorem ofName?_name (primitive : Primitive) : ofName? primitive.name = some primitive := by
  cases primitive <;> decide

theorem ofName?_spelling (primitive : Primitive) :
    ofName? primitive.spelling = some primitive := by
  cases primitive <;> decide

end Primitive

/-- An array bound or the length of a string: a number or the name of a constant. -/
inductive Size
  | literal (value : Nat)
  | named (name : String)
  deriving DecidableEq, Repr

/-- How a field or an alias wraps its type. -/
inductive Shape
  /-- `T name` -/
  | plain
  /-- `T *name` -/
  | optional
  /-- `T name[n]` -/
  | fixedArray (size : Size)
  /-- `T name<n>` or `T name<>`, for any type but strings. -/
  | variableArray (bound : Option Size)
  /-- `string name<n>` or `string name<>`, which is one string and no array. -/
  | boundedString (bound : Option Size)
  deriving DecidableEq, Repr

/-- The number that a case stands for, a name for it, or the arm for all others. -/
inductive CaseLabel
  | named (name : String)
  | literal (value : Int)
  | default
  deriving DecidableEq, Repr

/-- The type that a union switches on. -/
inductive SwitchType
  | int
  | unsignedInt
  | bool
  | named (name : String)
  deriving DecidableEq, Repr

/-- The name of the type that a union switches on. -/
def SwitchType.name : SwitchType → String
  | int => "int"
  | unsignedInt => "unsigned int"
  | bool => "bool"
  | named name => name

/-- What a union switches on. -/
structure Discriminant where
  name : String
  type : SwitchType
  deriving DecidableEq, Repr

mutual

/-- The type of a field: a name, or a type written in place. -/
inductive FieldType
  | named (name : String)
  | struct (declared : Struct)
  | union (declared : Union)

/-- A field of a structure or the content of a union arm. -/
structure Field where
  name : String
  type : FieldType
  shape : Shape
  line : Nat

/-- A structure. -/
structure Struct where
  name : String
  fields : List Field
  line : Nat

/-- An arm of a union: its labels, and its content unless it is void. -/
structure Arm where
  labels : List CaseLabel
  content : Option Field
  line : Nat

/-- A union. -/
structure Union where
  name : String
  discriminant : Discriminant
  arms : List Arm
  line : Nat

end

/-! ## Facts about a field -/

/-- The name of the type; a type written in place is known by its inline name. -/
def FieldType.name : FieldType → String
  | .named name => name
  | .struct declared => declared.name
  | .union declared => declared.name

namespace Shape

/-- Whether the shape is `T *name`. -/
def isOptional : Shape → Bool
  | .optional => true
  | _ => false

/-- Whether the shape is an array of a fixed number of elements. -/
def isFixedArray : Shape → Bool
  | .fixedArray _ => true
  | _ => false

/-- Whether the shape is an array of varying length. -/
def isVariableArray : Shape → Bool
  | .variableArray _ => true
  | _ => false

/-- Whether the shape is an array of either sort. -/
def isArray (shape : Shape) : Bool := shape.isFixedArray || shape.isVariableArray

/-- Whether the shape is an array of varying length without a bound. -/
def isUnboundedArray : Shape → Bool
  | .variableArray none => true
  | _ => false

/-- The length or the bound of an array. -/
def arraySize? : Shape → Option Size
  | .fixedArray size => some size
  | .variableArray bound => bound
  | _ => none

/-- The longest string, where it is given as a number. -/
def maxLength? : Shape → Option Nat
  | .boundedString (some (.literal length)) => some length
  | _ => none

end Shape

/-- Whether an arm takes the cases that no other arm names. -/
def Arm.isDefault (arm : Arm) : Bool := arm.labels.contains .default

/-- Whether an arm carries nothing. -/
def Arm.isVoid (arm : Arm) : Bool := arm.content.isNone

/-- The name of a type written in place: the name of the type around it, then the
field name with its first letter in upper case. -/
def inlineName (parent field : String) : String :=
  match field.toList with
  | [] => parent
  | first :: rest => parent ++ String.ofList (first.toUpper :: rest)

/-! ## Definitions -/

/-- A named number. -/
structure Constant where
  name : String
  value : Int
  line : Nat
  deriving DecidableEq, Repr

/-- Another name for a type in some shape. -/
structure Typedef where
  name : String
  underlying : String
  shape : Shape
  line : Nat
  deriving DecidableEq, Repr

/-- Whether an alias stands for opaque bytes. -/
def Typedef.isOpaque (declared : Typedef) : Bool := declared.underlying == Primitive.opaqueData.name

/-- Whether an alias stands for strings. -/
def Typedef.isString (declared : Typedef) : Bool := declared.underlying == Primitive.string.name

/-- The right-hand side of an enumeration value. A symbol is looked up later, and
`resolved` is what was found. -/
inductive EnumSource
  | literal (value : Int)
  | reference (symbol : String) (resolved : Option Int)
  deriving DecidableEq, Repr

/-- The number, where it is known. -/
def EnumSource.value? : EnumSource → Option Int
  | .literal value => some value
  | .reference _ resolved => resolved

/-- The symbol referred to, if the value is not written as a number. -/
def EnumSource.symbol? : EnumSource → Option String
  | .literal _ => none
  | .reference symbol _ => some symbol

/-- A named value of an enumeration. -/
structure EnumValue where
  name : String
  source : EnumSource
  line : Nat
  deriving DecidableEq, Repr

/-- An enumeration. -/
structure Enum where
  name : String
  values : List EnumValue
  line : Nat
  deriving DecidableEq, Repr

/-- A definition of a file. -/
inductive Definition
  | constant (declared : Constant)
  | typedef (declared : Typedef)
  | enum (declared : Enum)
  | struct (declared : Struct)
  | union (declared : Union)

/-- The sorts of definitions. -/
inductive DefinitionKind
  | constant | typedef | enum | struct | union
  deriving DecidableEq, Repr

/-- The sorts of definitions in the order in which they are reported. -/
def DefinitionKind.all : List DefinitionKind := [.constant, .typedef, .enum, .struct, .union]

namespace Definition

/-- The sort of a definition. -/
def kind : Definition → DefinitionKind
  | constant _ => .constant
  | typedef _ => .typedef
  | enum _ => .enum
  | struct _ => .struct
  | union _ => .union

/-- The name that is defined. -/
def name : Definition → String
  | constant declared => declared.name
  | typedef declared => declared.name
  | enum declared => declared.name
  | struct declared => declared.name
  | union declared => declared.name

/-- Whether a type is defined, which holds of everything but constants. -/
def isType : Definition → Bool
  | constant _ => false
  | _ => true

end Definition

/-! ## Types written in place

They are listed innermost first and otherwise in the order of the fields. -/

mutual

/-- The types written in place within a field type, itself included. -/
def FieldType.inlined : FieldType → List Definition
  | .named _ => []
  | .struct declared => declared.inlined ++ [.struct declared]
  | .union declared => declared.inlined ++ [.union declared]

/-- The types written in place within a field. -/
def Field.inlined : Field → List Definition
  | ⟨_, type, _, _⟩ => type.inlined

/-- The types written in place within a structure. -/
def Struct.inlined : Struct → List Definition
  | ⟨_, fields, _⟩ => inlinedOfFields fields

/-- The types written in place within an arm. -/
def Arm.inlined : Arm → List Definition
  | ⟨_, none, _⟩ => []
  | ⟨_, some content, _⟩ => content.inlined

/-- The types written in place within a union. -/
def Union.inlined : Union → List Definition
  | ⟨_, _, arms, _⟩ => inlinedOfArms arms

/-- The types written in place within a list of fields. -/
def inlinedOfFields : List Field → List Definition
  | [] => []
  | field :: rest => field.inlined ++ inlinedOfFields rest

/-- The types written in place within a list of arms. -/
def inlinedOfArms : List Arm → List Definition
  | [] => []
  | arm :: rest => arm.inlined ++ inlinedOfArms rest

end

/-- The types written in place within a definition. -/
def Definition.inlined : Definition → List Definition
  | .struct declared => declared.inlined
  | .union declared => declared.inlined
  | _ => []

/-- A definition behind the types written in place within it. -/
def Definition.unfolded (definition : Definition) : List Definition :=
  definition.inlined ++ [definition]

/-! ## Files -/

/-- A parsed file. Its definitions stand in source order, each behind the types
written in place within it. -/
structure File where
  filename : String
  nameSpace : Option String
  definitions : List Definition

namespace File

/-- The definitions of one sort. -/
def ofKind (file : File) (kind : DefinitionKind) : List Definition :=
  file.definitions.filter fun definition => definition.kind == kind

/-- The number of definitions of one sort. -/
def count (file : File) (kind : DefinitionKind) : Nat := (file.ofKind kind).length

/-- The number of definitions of all sorts together. -/
def total (file : File) : Nat := (DefinitionKind.all.flatMap file.ofKind).length

theorem total_eq_length (file : File) : file.total = file.definitions.length := by
  simp only [total, DefinitionKind.all, ofKind, List.flatMap_cons, List.flatMap_nil,
    List.length_append, List.length_nil]
  induction file.definitions with
  | nil => rfl
  | cons definition rest ih =>
    cases definition <;> simp [Definition.kind] at ih ⊢ <;> omega

/-- The first definition with a given name. -/
def get? (file : File) (name : String) : Option Definition :=
  file.definitions.find? fun definition => definition.name == name

/-- The names of the types defined, in order. -/
def typeNames (file : File) : List String :=
  (file.definitions.filter Definition.isType).map Definition.name

/-- The names among `definitions` that were defined before under the same sort:
either among `seen` or earlier in the list. -/
def repeated (seen : List (DefinitionKind × String)) : List Definition → List String
  | [] => []
  | definition :: rest =>
    let key := (definition.kind, definition.name)
    if seen.contains key then definition.name :: repeated seen rest
    else repeated (key :: seen) rest

/-- The names defined again under a sort they already had, once for each repeat. -/
def repeatedNames (file : File) : List String := repeated [] file.definitions

end File

end XdrBindings.Idl
