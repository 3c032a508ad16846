import XdrBindings.Code.Rename
import XdrBindings.Merge.Imports
import XdrBindings.Merge.Splice

/-!
# Merging a generated file with the file it replaces

A class of the old file matches the generated class of its name, or else of its name
with the beginning of generated class names. Sections of matched classes are spliced
into the generated classes. Classes without a match are carried over whole, under the
generated naming: their names, and the generated names written without their
beginning, are replaced in the code that is carried over. Last come the imports and
the header of the old file.

## Main statements

* `merge_none`: without an old file the generated text stays as it is.
* `matchOf?_mem`: what an old class matches is a generated class.
-/

namespace XdrBindings.Merge

open Code

/-! ## What a merge gives -/

/-- What a merge did that is worth a look. -/
inductive Note
  /-- A class was carried over, perhaps under another name. -/
  | carriedOver (name : Text) (renamedTo : Option Text)
  /-- A section went with a class that was carried over. -/
  | sectionCarried (className : Text) (line : Nat)
  deriving DecidableEq, Repr

/-- What a note says. -/
def Note.message : Note → String
  | .carriedOver name (some newName) =>
    "preserved class '" ++ String.ofList name ++ "' as '" ++ String.ofList newName ++ "'"
  | .carriedOver name none => "preserved class '" ++ String.ofList name ++ "'"
  | .sectionCarried className line =>
    "class '" ++ String.ofList className ++ "' not generated, custom section at line " ++
      toString line ++ " kept with the preserved class"

/-- A merged text, the old names of the classes that were carried over, and notes. -/
structure Merged where
  text : Text
  carried : List Text
  notes : List Note
  deriving DecidableEq, Repr

/-- Carries out renames, each a name and its new name, one after the other. -/
def renameAll (renames : List (Text × Text)) (text : Text) : Text :=
  renames.foldl (fun text (old, new) => renameWord old new text) text

namespace Style

/-! ## Matching classes -/

/-- The generated class that an old class matches. -/
def matchOf? (style : Style) (generated : List ClassDecl) (name : Text) : Option Text :=
  let isGenerated (candidate : Text) := generated.any fun decl => decl.name == candidate
  if isGenerated name then some name
  else (style.generatedName? name).filter isGenerated

theorem matchOf?_mem {style : Style} {generated : List ClassDecl} {name target : Text}
    (h : style.matchOf? generated name = some target) :
    target ∈ generated.map ClassDecl.name := by
  unfold matchOf? at h
  dsimp only at h
  have hAny : (generated.any fun decl => decl.name == target) = true := by
    split at h
    · rename_i hName
      cases h
      exact hName
    · exact (Option.filter_eq_some_iff.mp h).2
  obtain ⟨decl, hDecl, hEq⟩ := List.any_eq_true.mp hAny
  exact List.mem_map.mpr ⟨decl, hDecl, by simpa using hEq⟩

/-- Splices the sections of the old classes that have a match. -/
def spliceAll (style : Style) (generated : List ClassDecl) :
    Text → List OldClass → Except Refusal Text
  | text, [] => .ok text
  | text, old :: rest =>
    match style.matchOf? generated old.decl.name with
    | some target =>
      if old.sections.isEmpty then style.spliceAll generated text rest
      else do
        let text ← style.splice text target old.sections
        style.spliceAll generated text rest
    | none => style.spliceAll generated text rest

/-! ## Classes that are carried over -/

/-- The names of carried classes with the generated names that replace them. -/
def carriedRenames (style : Style) (carried : List OldClass) : List (Text × Text) :=
  carried.filterMap fun old =>
    (style.generatedName? old.decl.name).map fun newName => (old.decl.name, newName)

/-- The generated names written without their beginning, with the names themselves.
Only what begins with an ASCII capital letter is taken for such a name. -/
def generatedRenames (style : Style) (generated : List ClassDecl) : List (Text × Text) :=
  generated.filterMap fun decl =>
    if decl.name.startsWith style.classStart then
      let base := decl.name.drop style.classStart.length
      if base.head?.any Char.isUpper then some (base, decl.name) else none
    else none

/-- The text with the classes that are carried over behind it. -/
def carryOver (style : Style) (text existing : Text) (carried : List OldClass) :
    Except Refusal Text := do
  let generated ← generatedClasses text
  let sources := carried.map fun old => old.decl.source existing
  let renames := style.carriedRenames carried ++ style.generatedRenames generated
  return Text.trimEnd text ++ ['\n', '\n'] ++ style.carriedLabel ++ ['\n'] ++
    renameAll renames (Text.join ['\n', '\n'] sources) ++ ['\n']

/-- The notes on the classes that are carried over. -/
def carriedNotes (style : Style) (carried : List OldClass) : List Note :=
  (carried.flatMap fun old => old.sections.map fun part =>
    .sectionCarried old.decl.name part.line) ++
    carried.map fun old => .carriedOver old.decl.name (style.generatedName? old.decl.name)

/-! ## The merge -/

/-- Merges a generated text with an existing one. -/
def mergeExisting (style : Style) (generated existing : Text) : Except Refusal Merged := do
  let old ← OldFile.ofText style existing
  let classes ← generatedClasses generated
  let missing := old.classes.filter fun old => (style.matchOf? classes old.decl.name).isNone
  let spliced ← style.spliceAll classes generated old.classes
  let carried ←
    if missing.isEmpty then pure spliced else style.carryOver spliced existing missing
  let imported := if old.imports.isEmpty then carried else withImports old.imports carried
  let text :=
    match old.header with
    | none => imported
    | some header => withHeader header imported
  return ⟨text, missing.map fun old => old.decl.name, style.carriedNotes missing⟩

/-- Merges a generated text with the text it replaces, if there is one. -/
def merge (style : Style) (generated : Text) (existing : Option Text) :
    Except Refusal Merged :=
  match existing with
  | none => .ok ⟨generated, [], []⟩
  | some existing => style.mergeExisting generated existing

@[simp] theorem merge_none (style : Style) (generated : Text) :
    style.merge generated none = .ok ⟨generated, [], []⟩ := rfl

end Style

end XdrBindings.Merge
