import XdrBindings.Code.Import

/-!
# Imports and header of a merged file

The imports of the old file come first, in their order; a generated import is added
unless it is there or the old file imports its module, under whatever path. The list
takes the place of the lines from the first through the last import of the generated
text; where there is none, it goes in front of the first class, with an empty line
behind it.

The header of the old file replaces all that stands before the first import or class.

## Main statements

* `prefix_reconcile`: the imports of the old file come first and are all kept.
-/

namespace XdrBindings.Merge

open Code

/-! ## Imports -/

/-- The imports with a generated one added unless it is known, `keptModules` being the
modules that the old file imports. -/
def addImport (keptModules : List Text) (imports : List Text) (directive : Text) : List Text :=
  match importPath? directive with
  | none => imports
  | some path =>
    if keptModules.contains (moduleName path) || imports.contains directive then imports
    else imports ++ [directive]

/-- The imports of the old file followed by the generated ones that are new. -/
def reconcile (kept generated : List Text) : List Text :=
  generated.foldl (addImport ((kept.filterMap importPath?).map moduleName)) kept

theorem prefix_addImport (keptModules imports : List Text) (directive : Text) :
    imports <+: addImport keptModules imports directive := by
  unfold addImport
  split
  · exact List.prefix_refl _
  · split
    · exact List.prefix_refl _
    · exact List.prefix_append _ _

theorem prefix_reconcile (kept generated : List Text) : kept <+: reconcile kept generated := by
  have key (keptModules imports : List Text) :
      imports <+: generated.foldl (addImport keptModules) imports := by
    induction generated generalizing imports with
    | nil => exact List.prefix_refl _
    | cons directive rest ih => exact (prefix_addImport _ _ _).trans (ih _)
  exact key _ _

/-- Whether a line begins, behind blanks, with `import` and a space. -/
def isImportLine (line : Text) : Bool :=
  Text.startsWith (Text.trimStart line) "import ".toList

/-- The text with a list of directives in place of its import lines. -/
def putImports (imports : List Text) (text : Text) : Text :=
  let lines := text.pieces
  if lines.any isImportLine then
    let before := lines.takeWhile fun line => !isImportLine line
    let behind := (lines.reverse.takeWhile fun line => !isImportLine line).reverse
    Text.ofPieces (before ++ imports ++ behind)
  else
    match firstHead? text with
    | none => text
    | some position =>
      let index := text.lineOf position - 1
      Text.ofPieces (lines.take index ++ imports ++ [[]] ++ lines.drop index)

/-- The text with the imports of the old file reconciled with its own. -/
def withImports (kept : List Text) (text : Text) : Text :=
  putImports (reconcile kept (importsOf text)) text

/-! ## Header -/

/-- The text with a header in front of its first import or class line. -/
def withHeader (header text : Text) : Text :=
  match firstHead? text with
  | none => text
  | some position => header ++ ['\n', '\n'] ++ Text.trimStart (text.drop position)

end XdrBindings.Merge
