import XdrBindings.Idl.Declaration

/-!
# Values of enumerations

An enumeration value may be written as the name of a constant or of another
enumeration value, in the same file or in another one. A symbol table starts with
the constants and the enumeration values that are written as numbers, file by file
and in each file the constants first, and the first entry for a name counts. An open
reference whose symbol is in the table gives its own name the same number, unless
the name has one already. This is repeated until nothing is added, so chains of
references are followed whatever their order; then every open reference takes the
number of its symbol from the finished table.

A table entry never changes, which is why the references can be filled in at the end
and why the order of filling does not matter.

## Main statements

* `lookup_extend`: extending a table keeps what it says of every known name.
* `lookup_pass`, `lookup_closure`: so do a pass and the whole closure.
-/

namespace XdrBindings.Idl

/-! ## Symbol tables -/

/-- Known numbers by name. The first entry for a name counts. -/
abbrev SymbolTable := List (String × Int)

namespace SymbolTable

/-- Adds a number for a name that has none yet. -/
def extend (table : SymbolTable) (name : String) (value : Int) : SymbolTable :=
  if (table.lookup name).isSome then table else table ++ [(name, value)]

theorem lookup_append (front back : SymbolTable) (name : String) :
    (front ++ back).lookup name = (front.lookup name).or (back.lookup name) := by
  induction front with
  | nil => simp
  | cons entry rest ih =>
    obtain ⟨known, value⟩ := entry
    by_cases h : name == known
    · simp [List.lookup_cons, h]
    · simp [List.lookup_cons, h, ih]

theorem lookup_extend {table : SymbolTable} {name : String} {value : Int}
    (added : String) (number : Int) (h : table.lookup name = some value) :
    (table.extend added number).lookup name = some value := by
  unfold extend
  split
  · exact h
  · simp [lookup_append, h]

/-- Open references, each a name and the symbol it refers to. -/
abbrev Links := List (String × String)

/-- One pass over open references: the table then, and the references that stay open. -/
def pass (table : SymbolTable) : Links → SymbolTable × Links
  | [] => (table, [])
  | (name, symbol) :: rest =>
    match table.lookup symbol with
    | some value => pass (table.extend name value) rest
    | none =>
      let (next, left) := pass table rest
      (next, (name, symbol) :: left)

theorem lookup_pass {table : SymbolTable} {name : String} {value : Int}
    (links : Links) (h : table.lookup name = some value) :
    (table.pass links).1.lookup name = some value := by
  induction links generalizing table with
  | nil => exact h
  | cons link rest ih =>
    obtain ⟨added, symbol⟩ := link
    unfold pass
    split
    · exact ih (lookup_extend added _ h)
    · exact ih h

/-- Repeats passes over what stays open until one closes nothing, at most `bound` of
them. Every pass before that closes a reference, so their number is bound enough. -/
def close : (bound : Nat) → SymbolTable → Links → SymbolTable
  | 0, table, _ => table
  | bound + 1, table, links =>
    let (next, left) := table.pass links
    if left.length = links.length then next else close bound next left

theorem lookup_close {bound : Nat} {table : SymbolTable} {links : Links} {name : String}
    {value : Int} (h : table.lookup name = some value) :
    (close bound table links).lookup name = some value := by
  induction bound generalizing table links with
  | zero => exact h
  | succ bound ih =>
    unfold close
    dsimp only
    split
    · exact lookup_pass links h
    · exact ih (lookup_pass links h)

/-- The table with everything that the open references add to it. -/
def closure (table : SymbolTable) (links : Links) : SymbolTable :=
  close links.length table links

theorem lookup_closure {table : SymbolTable} {name : String} {value : Int}
    (links : Links) (h : table.lookup name = some value) :
    (table.closure links).lookup name = some value := lookup_close h

end SymbolTable

/-! ## What a file contributes -/

namespace Definition

/-- The constant that is defined, if one is. -/
def constant? : Definition → Option Constant
  | .constant declared => some declared
  | _ => none

/-- The enumeration that is defined, if one is. -/
def enum? : Definition → Option Enum
  | .enum declared => some declared
  | _ => none

end Definition

/-- The constants of a file. -/
def File.constants (file : File) : List Constant :=
  file.definitions.filterMap Definition.constant?

/-- The enumerations of a file. -/
def File.enums (file : File) : List Enum := file.definitions.filterMap Definition.enum?

/-- The number an enumeration value is written as, by its name. -/
def EnumValue.literal? (value : EnumValue) : Option (String × Int) :=
  match value.source with
  | .literal number => some (value.name, number)
  | .reference _ _ => none

/-- The name and the symbol of an enumeration value whose number is not known. -/
def EnumValue.link? (value : EnumValue) : Option (String × String) :=
  match value.source with
  | .reference symbol none => some (value.name, symbol)
  | _ => none

/-- The numbers that stand written in a file: its constants, then its enumeration
values. -/
def File.literals (file : File) : SymbolTable :=
  file.constants.map (fun constant => (constant.name, constant.value)) ++
    file.enums.flatMap fun enum => enum.values.filterMap EnumValue.literal?

/-- The open references of a file. -/
def File.links (file : File) : SymbolTable.Links :=
  file.enums.flatMap fun enum => enum.values.filterMap EnumValue.link?

/-! ## Filling in -/

/-- Fills in an open reference from a table. -/
def EnumSource.fill (table : SymbolTable) : EnumSource → EnumSource
  | .reference symbol none => .reference symbol (table.lookup symbol)
  | source => source

/-- Fills in the references of an enumeration. -/
def Enum.fill (table : SymbolTable) (enum : Enum) : Enum :=
  { enum with
    values := enum.values.map fun value => { value with source := value.source.fill table } }

/-- Fills in the references of a definition. -/
def Definition.fill (table : SymbolTable) : Definition → Definition
  | .enum declared => .enum (declared.fill table)
  | other => other

/-- Fills in the references of a file. -/
def File.fill (table : SymbolTable) (file : File) : File :=
  { file with definitions := file.definitions.map (Definition.fill table) }

/-! ## Resolution -/

/-- An enumeration value whose symbol is unknown. -/
structure Unresolved where
  file : String
  enum : String
  value : String
  symbol : String
  line : Nat
  deriving DecidableEq, Repr

/-- What is said of an unknown symbol. -/
def Unresolved.message (reference : Unresolved) : String :=
  reference.file ++ ":" ++ toString reference.line ++ ": " ++ reference.enum ++ "." ++
    reference.value ++ " references unknown symbol '" ++ reference.symbol ++ "'"

/-- An enumeration value as it is reported, if it is an open reference. -/
def EnumValue.unresolved? (file enum : String) (value : EnumValue) : Option Unresolved :=
  value.link?.map fun (name, symbol) => ⟨file, enum, name, symbol, value.line⟩

/-- The open references of a file as they are reported. -/
def File.unresolved (file : File) : List Unresolved :=
  file.enums.flatMap fun enum =>
    enum.values.filterMap (EnumValue.unresolved? file.filename enum.name)

/-- The finished symbol table of some files taken together. -/
def symbolTable (files : List File) : SymbolTable :=
  SymbolTable.closure (files.flatMap File.literals) (files.flatMap File.links)

/-- Fills in every reference that can be followed across the files. -/
def resolveEnums (files : List File) : List File := files.map (File.fill (symbolTable files))

/-- The references that are open in files, as they are reported. -/
def openReferences (files : List File) : List Unresolved := files.flatMap File.unresolved

end XdrBindings.Idl
