import XdrBindings.Code.ClassDecl
import XdrBindings.Code.Import
import XdrBindings.Merge.Marker

/-!
# What an old file holds

An old file is known by its header, its import directives, its classes, and for each
class the sections written by hand within its body. A section belongs to the first
class whose braces enclose the beginning of its start marker line. A section that
belongs to no class could not be kept, so such a file is refused.
-/

namespace XdrBindings.Merge

open Code

/-- Code written by hand: the lines strictly between two marker lines. -/
structure Section where
  className : Text
  content : Text
  /-- The line of the start marker. -/
  line : Nat
  deriving DecidableEq, Repr

/-- A class with its sections, in order. -/
structure OldClass where
  decl : ClassDecl
  sections : List Section
  deriving DecidableEq, Repr

/-- What an old file holds. -/
structure OldFile where
  header : Option Text
  imports : List Text
  classes : List OldClass
  deriving DecidableEq, Repr

/-- The first class with a given name. -/
def OldFile.class? (file : OldFile) (name : Text) : Option OldClass :=
  file.classes.find? fun old => old.decl.name == name

/-- Gives the section between two marker lines to the first class that encloses it. -/
def attach (text : Text) (pair : Marker × Marker) :
    List OldClass → Except Refusal (List OldClass)
  | [] => .error (.existing (.strandedSection pair.1.line))
  | old :: rest =>
    if old.decl.encloses pair.1.start then
      let added : Section :=
        ⟨old.decl.name, text.slice pair.1.stop pair.2.start, pair.1.line⟩
      .ok (⟨old.decl, old.sections ++ [added]⟩ :: rest)
    else do
      let others ← attach text pair rest
      return old :: others

/-- Reads what an old file holds. -/
def OldFile.ofText (style : Style) (text : Text) : Except Refusal OldFile := do
  let pairs ← style.pairs text
  let found ← (classesOf text).mapError fun found => .existing (.unclosedClass found)
  let classes ← pairs.foldlM (fun classes pair => attach text pair classes)
    (found.map fun decl => ⟨decl, []⟩)
  return ⟨headerOf text, importsOf text, classes⟩

end XdrBindings.Merge
