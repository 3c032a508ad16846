import XdrBindings.Decimal.Fixed
import XdrBindings.Dependency.Naming
import XdrBindings.Graph.Order
import XdrBindings.Idl.Declaration

/-!
# Dependencies between types and between files

A definition refers to the types of its fields, to the type it switches on and to the
type it is another name for. Under a naming these references become edges between
classes; under an assignment of classes to output files they become edges between
files. A file imports the files it depends on and one baseline file.

A class without an output file takes no part in the file graph and is reported.

## Main statements

* `mem_referencedTypes`: what a definition refers to.
* `mem_importSet`: what a file imports.
-/

namespace XdrBindings

open Idl

/-! ## References of a definition -/

/-- The type names that a definition is written with. -/
def Idl.Definition.mentioned : Definition → List String
  | .constant _ => []
  | .enum _ => []
  | .typedef declared => [declared.underlying]
  | .struct declared => declared.fields.map (·.type.name)
  | .union declared =>
    (match declared.discriminant.type with
      | .named name => [name]
      | _ => []) ++
      declared.arms.filterMap fun arm => arm.content.map (·.type.name)

/-- The types that a definition refers to, without primitive types and itself. -/
def Idl.Definition.referencedTypes (definition : Definition) : NameSet :=
  NameSet.ofList <| definition.mentioned.filter fun name =>
    name != definition.name && (Primitive.ofName? name).isNone

theorem mem_referencedTypes {definition : Definition} {name : String} :
    name ∈ definition.referencedTypes ↔
      name ∈ definition.mentioned ∧ name ≠ definition.name ∧ Primitive.ofName? name = none := by
  simp [Definition.referencedTypes]

/-! ## The graphs -/

/-- The graphs of types and of files with what is needed to answer for imports. -/
structure Dependencies where
  types : Graph
  files : Graph
  /-- The output file of a defined class. -/
  fileOf : String → Option String
  /-- The classes without an output file. -/
  unassigned : NameSet
  /-- The file that every file imports. -/
  baseline : String

/-- The baseline file where nothing else is asked for. -/
def standardBaseline : String := "xdr_data_io.dart"

/-- The classes that the files define, in order. -/
def definedClasses (naming : Naming) (files : List File) : List String :=
  files.flatMap fun file => file.typeNames.map naming.className

/-- Every reference from one class to another one, in order. -/
def classReferences (naming : Naming) (files : List File) : List (String × String) :=
  files.flatMap fun file => file.definitions.flatMap fun definition =>
    (definition.referencedTypes.toList.map fun name =>
      (naming.className definition.name, naming.className name)).filter fun edge =>
        edge.1 != edge.2

/-- The dependencies of parsed files, where `assignment` gives the output file of a
class. -/
def Dependencies.ofFiles (naming : Naming) (baseline : String)
    (assignment : String → Option String) (files : List File) : Dependencies :=
  let classes := definedClasses naming files
  let references := classReferences naming files
  let fileEdges := references.filterMap fun (source, target) =>
    match assignment source, assignment target with
    | some a, some b => some (a, b)
    | _, _ => none
  { types := (Graph.empty.addNodes classes).addEdges references
    files := (Graph.empty.addNodes (classes.filterMap assignment)).addEdges fileEdges
    fileOf := fun name => if classes.contains name then assignment name else none
    unassigned := NameSet.ofList <|
      (classes ++ references.map Prod.snd).filter fun name => (assignment name).isNone
    baseline }

namespace Dependencies

/-! ## Imports -/

/-- The files that a file imports: those it depends on and the baseline, but not
itself. -/
def importSet (dependencies : Dependencies) (file : String) : NameSet :=
  ((dependencies.files.dependencies file).insert dependencies.baseline).erase file

theorem mem_importSet {dependencies : Dependencies} {file other : String} :
    other ∈ dependencies.importSet file ↔
      ((file, other) ∈ dependencies.files.edges ∨ other = dependencies.baseline) ∧
        other ≠ file := by
  simp only [importSet, NameSet.mem_erase, NameSet.mem_insert, Graph.mem_dependencies]
  constructor
  · rintro ⟨h | h, hNe⟩
    · exact ⟨.inr h, hNe⟩
    · exact ⟨.inl h, hNe⟩
  · rintro ⟨h | h, hNe⟩
    · exact ⟨.inr h, hNe⟩
    · exact ⟨.inl h, hNe⟩

/-- The directive that imports a file. -/
def importDirective (file : String) : String := "import '" ++ file ++ "';"

/-- The import set as directives. -/
def importStatements (dependencies : Dependencies) (file : String) : List String :=
  (dependencies.importSet file).toList.map importDirective

/-! ## Findings -/

/-- What is worth a warning. -/
inductive Finding
  | circular (a b : String)
  | unassigned (type : String)
  deriving DecidableEq, Repr

/-- What a warning says. -/
def Finding.message : Finding → String
  | .circular a b => "Circular dependency: " ++ a ++ " <-> " ++ b
  | .unassigned type => "Type '" ++ type ++ "' has no file assignment"

/-- The pairs of files that depend on each other, then the classes without a file. -/
def findings (dependencies : Dependencies) : List Finding :=
  (dependencies.files.mutualPairs.map fun (a, b) => .circular a b) ++
    dependencies.unassigned.toList.map .unassigned

end Dependencies

/-! ## Statistics -/

/-- How many nodes a graph has, and how many dependencies a node has at most and on
average. -/
structure Degrees where
  total : Nat
  most : Nat
  average : String
  deriving DecidableEq, Repr

/-- The statistics of a graph. -/
def Graph.degrees (g : Graph) : Degrees where
  total := g.nodeCount
  most := (g.dump.map fun (_, targets) => targets.toList.length).foldl max 0
  average := Decimal.sixPlaces g.edgeCount g.nodeCount

end XdrBindings
