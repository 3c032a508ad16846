import XdrBindings.Text.Basic

/-!
# The style of merged files

A generated file is merged with the file that it replaces, so that code written by hand
survives. The style of a project says which marks enclose such code, how class names
begin, how members are indented, and what line introduces classes that are carried
over.

## Main statements

* `generatedName?_eq_none_iff`: only a name that begins as generated ones do has no
  other generated name.
-/

namespace XdrBindings.Merge

/-- The style of merged files. -/
structure Style where
  /-- What the names of generated classes begin with: `Foo` of an old file is `XdrFoo` of
  a generated one. -/
  classStart : Text
  startMarker : Text
  endMarker : Text
  memberIndent : Text
  /-- The line above classes that are carried over. -/
  carriedLabel : Text
  deriving DecidableEq, Repr

namespace Style

/-- The style where nothing else is asked for. -/
def standard : Style where
  classStart := "Xdr".toList
  startMarker := "// CUSTOM_CODE_START".toList
  endMarker := "// CUSTOM_CODE_END".toList
  memberIndent := "  ".toList
  carriedLabel := "// Preserved helper classes (not in XDR spec)".toList

/-- The name with the beginning of generated class names, unless it has that already. -/
def generatedName? (style : Style) (name : Text) : Option Text :=
  if name.startsWith style.classStart then none else some (style.classStart ++ name)

theorem generatedName?_eq_none_iff {style : Style} {name : Text} :
    style.generatedName? name = none ↔ name.startsWith style.classStart = true := by
  simp [generatedName?]

end Style

end XdrBindings.Merge
