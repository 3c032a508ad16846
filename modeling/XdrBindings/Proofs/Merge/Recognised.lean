import XdrBindings.Proofs.Code.ClassBody
import XdrBindings.Proofs.Merge.Reconciled
import XdrBindings.Proofs.Merge.Stages

/-!
# A merge that recognises what it wrote

A merge recognises what it wrote, if every old class has a match that holds a start marker
where there are sections, the imports that are written begin and end with an import line, and
the header stands right in front of the first import or class line.  Then no step of a second
merge with the same old file changes the text.

## Main results

* `Style.spliceAll_eq_self` — sections that are spliced in are not spliced in again.
* `Stages.IsRecognised` — a merge recognises what it wrote.
* `Stages.IsRecognised.exists_again` — the way through the second merge.
-/

namespace XdrBindings.Merge

open Code

/-! ## Sections -/

namespace Style

/-- What a merge looks for in a text: a match for an old class, with a start marker if there
are sections. -/
def Finds (style : Style) (text : Text) (found : List ClassDecl) (old : OldClass) : Prop :=
  ∃ target ∈ style.matchOf? found old.decl.name,
    old.sections ≠ [] → ∃ body ∈ bodyOf? text found target,
      Text.contains body style.startMarker = true

instance (style : Style) (text : Text) (found : List ClassDecl) (old : OldClass) :
    Decidable (style.Finds text found old) :=
  inferInstanceAs (Decidable (∃ target ∈ style.matchOf? found old.decl.name,
    old.sections ≠ [] → ∃ body ∈ bodyOf? text found target,
      Text.contains body style.startMarker = true))

theorem splice_eq_self {style : Style} {text target body : Text} {found : List ClassDecl}
    (hFound : classesOf text = .ok found) (hBody : bodyOf? text found target = some body)
    (hMarked : Text.contains body style.startMarker = true) (sections : List Section) :
    style.splice text target sections = .ok text := by
  obtain ⟨decl, hDecl, rfl⟩ := Option.map_eq_some_iff.mp hBody
  unfold splice
  refine bind_eq_ok_iff.mpr ⟨found, generatedClasses_eq_ok_iff.mpr hFound, ?_⟩
  rw [hDecl]
  show (if (decl.body text).contains style.startMarker then _ else _) = _
  rw [hMarked]
  rfl

/-- Sections that are spliced in are not spliced in again. -/
theorem spliceAll_eq_self {style : Style} {text : Text} {found : List ClassDecl}
    (hFound : classesOf text = .ok found) {olds : List OldClass}
    (hOlds : ∀ old ∈ olds, style.Finds text found old) :
    style.spliceAll found text olds = .ok text := by
  induction olds with
  | nil => rfl
  | cons old rest ih =>
    have hRest := ih fun other hMem => hOlds other (List.mem_cons_of_mem _ hMem)
    obtain ⟨target, hTarget, hMarked⟩ := hOlds old List.mem_cons_self
    rw [spliceAll, Option.mem_def.mp hTarget]
    dsimp only
    split
    · exact hRest
    · rename_i hSections
      have hSome : old.sections ≠ [] := by
        intro hNil
        rw [hNil] at hSections
        exact hSections rfl
      obtain ⟨body, hBody, hContains⟩ := hMarked hSome
      rw [splice_eq_self hFound hBody hContains]
      exact hRest

theorem missing_eq_nil {style : Style} {text : Text} {found : List ClassDecl}
    {olds : List OldClass} (hOlds : ∀ old ∈ olds, style.Finds text found old) :
    style.missing found olds = [] := by
  apply List.filter_eq_nil_iff.mpr
  intro old hOld
  obtain ⟨target, hTarget, -⟩ := hOlds old hOld
  rw [Option.mem_def.mp hTarget]
  nofun

end Style

/-! ## The second merge -/

namespace Stages

variable {style : Style} {generated existing : Text}

/-- A merge recognises what it wrote. -/
structure IsRecognised (stages : Stages style generated existing) : Prop where
  /-- Every old class has a match in the merged text. -/
  classes : ∃ found ∈ (classesOf stages.text).toOption,
    ∀ old ∈ stages.old.classes, style.Finds stages.text found old
  /-- If imports are written, they begin with an import line. -/
  firstImport : stages.imported ≠ stages.carried →
    ∀ directive ∈ stages.old.imports.head?, isImportLine directive = true
  /-- They end with one. -/
  lastImport : stages.imported ≠ stages.carried →
    ∀ directive ∈ (reconcile stages.old.imports (importsOf stages.carried)).getLast?,
      isImportLine directive = true
  /-- The first import or class line of the merged text stands right behind the header. -/
  header : ∀ header ∈ stages.old.header, firstHead? stages.imported ≠ none →
    ∀ position ∈ firstHead? stages.text, position = header.length + 2
  /-- No import line stands in the header, no import in front of the place that it is put to. -/
  headerLines : stages.old.imports ≠ [] → ∀ header ∈ stages.old.header,
    ∀ position ∈ firstHead? stages.imported, (∀ line ∈ header.pieces, isImportLine line = false) ∧
      ∀ line ∈ Text.pieces (stages.imported.take position), IsOtherLine line

theorem text_eq (stages : Stages style generated existing) :
    stages.text = match stages.old.header with
      | none => stages.imported
      | some header => withHeader header stages.imported := rfl

/-- The old header stands in front of the merged text already. -/
theorem IsRecognised.withHeader_eq {stages : Stages style generated existing}
    (h : stages.IsRecognised) {header : Text} (hHeader : stages.old.header = some header) :
    withHeader header stages.text = stages.text := by
  have hText : stages.text = withHeader header stages.imported := by
    rw [text_eq, hHeader]
  cases hHead : firstHead? stages.imported with
  | none =>
    have hSame : stages.text = stages.imported := by
      rw [hText, withHeader, hHead]
    rw [hSame, withHeader, hHead]
  | some position =>
    have hWritten : stages.text = (header ++ ['\n', '\n']) ++
        Text.trimStart (stages.imported.drop position) := by
      rw [hText, withHeader, hHead]
    have hDrop : stages.text.drop (header.length + 2) =
        Text.trimStart (stages.imported.drop position) := by
      have hLength : header.length + 2 = (header ++ ['\n', '\n']).length := by simp
      rw [hWritten, hLength, List.drop_left]
    unfold withHeader
    cases hAgain : firstHead? stages.text with
    | none => rfl
    | some again =>
      have hPlace : again = header.length + 2 := by
        apply h.header header hHeader
        · rw [hHead]
          nofun
        · exact hAgain
      dsimp only
      rw [hPlace, hDrop, Text.trimStart_trimStart, ← hWritten]

theorem imported_eq (stages : Stages style generated existing) (hSome : stages.old.imports ≠ []) :
    stages.imported = withImports stages.old.imports stages.carried := by
  unfold imported
  rw [if_neg]
  intro hEmpty
  exact hSome (List.isEmpty_iff.mp hEmpty)

/-- Imports that are written are read as imports. -/
theorem IsRecognised.isImportBlock {stages : Stages style generated existing}
    (h : stages.IsRecognised) (hKept : ∀ directive ∈ stages.old.imports, IsDirective directive)
    (hSome : stages.old.imports ≠ []) (hWritten : stages.imported ≠ stages.carried) :
    IsImportBlock (reconcile stages.old.imports (importsOf stages.carried)) := by
  have hList := reconcile_ne_nil hSome (importsOf stages.carried)
  refine ⟨fun directive hMem => isDirective_of_mem_reconcile hKept hMem, ?_, ?_⟩
  · obtain ⟨directive, rest, hCons⟩ := List.exists_cons_of_ne_nil hSome
    have hHead : stages.old.imports.head? = some directive := by
      rw [hCons]
      rfl
    rw [head?_reconcile hSome]
    exact ⟨directive, hHead, h.firstImport hWritten directive hHead⟩
  · have hGetLast := List.getLast?_eq_some_getLast hList
    exact ⟨_, hGetLast, h.lastImport hWritten _ hGetLast⟩

/-- Behind the header, the import lines are still what was written. -/
theorem IsRecognised.exists_isReconciled_text {stages : Stages style generated existing}
    (h : stages.IsRecognised) {before imports behind : List Text}
    (hSome : stages.old.imports ≠ [])
    (hReconciled : IsReconciled stages.old.imports stages.imported before imports behind) :
    ∃ before, IsReconciled stages.old.imports stages.text before imports behind := by
  rw [text_eq]
  split
  · exact ⟨before, hReconciled⟩
  · rename_i header hHeader
    cases hHead : firstHead? stages.imported with
    | none =>
      unfold withHeader
      rw [hHead]
      exact ⟨before, hReconciled⟩
    | some position =>
      obtain ⟨hOldHeader, hImports⟩ := OldFile.header_imports_eq stages.read
      obtain ⟨hHeaderLines, hBefore⟩ := h.headerLines hSome header hHeader position hHead
      apply hReconciled.exists_withHeader hHeaderLines _ hHead hBefore
      intro directive hMem
      rw [hImports]
      exact mem_importsOf_of_headerOf (hOldHeader.symm.trans hHeader) hMem

/-- The imports of the old file are reconciled with those of the merged text already. -/
theorem IsRecognised.withImports_eq {stages : Stages style generated existing}
    (h : stages.IsRecognised) (hSome : stages.old.imports ≠ []) :
    withImports stages.old.imports stages.text = stages.text := by
  have hImported := stages.imported_eq hSome
  obtain ⟨-, hImports⟩ := OldFile.header_imports_eq stages.read
  have hKept : ∀ directive ∈ stages.old.imports, IsDirective directive := by
    rw [hImports]
    exact fun directive hMem => isDirective_of_mem_importsOf hMem
  have hBlock := h.isImportBlock hKept hSome
  rw [hImported] at hBlock
  rcases exists_isReconciled hKept hSome hBlock with ⟨hSame, hHead⟩ | ⟨_, _, _, hReconciled⟩
  · -- no import or class line stands in the text, so no header does either
    rw [hSame] at hImported
    have hText : stages.text = stages.carried := by
      rw [text_eq, hImported]
      split
      · rfl
      · unfold withHeader
        rw [hHead]
    rw [hText, hSame]
  · rw [← hImported] at hReconciled
    obtain ⟨_, hText⟩ := h.exists_isReconciled_text hSome hReconciled
    exact hText.withImports_eq

/-- The second merge goes through the merged text all the way. -/
theorem IsRecognised.exists_again {stages : Stages style generated existing}
    (h : stages.IsRecognised) :
    ∃ again : Stages style stages.text existing, again.text = stages.text := by
  obtain ⟨found, hFound, hOlds⟩ := h.classes
  have hClasses : classesOf stages.text = .ok found := by
    cases hText : classesOf stages.text with
    | error unclosed =>
      rw [hText] at hFound
      cases hFound
    | ok classes =>
      rw [hText] at hFound
      rw [Option.some.inj hFound]
  have hMissing : (if (style.missing found stages.old.classes).isEmpty then .ok stages.text
      else style.carryOver stages.text existing (style.missing found stages.old.classes)) =
        Except.ok stages.text := by
    rw [Style.missing_eq_nil hOlds]
    rfl
  let again : Stages style stages.text existing :=
    ⟨stages.old, found, stages.text, stages.text, stages.read, hClasses,
      Style.spliceAll_eq_self hClasses hOlds, hMissing⟩
  have hImported : again.imported = stages.text := by
    show (if stages.old.imports.isEmpty then stages.text
      else withImports stages.old.imports stages.text) = stages.text
    split
    · rfl
    · rename_i hSome
      apply h.withImports_eq
      intro hNil
      rw [hNil] at hSome
      exact hSome rfl
  refine ⟨again, ?_⟩
  rw [text_eq, hImported]
  show (match stages.old.header with
    | none => stages.text
    | some header => withHeader header stages.text) = stages.text
  split
  · rfl
  · rename_i header hHeader
    exact h.withHeader_eq hHeader

end Stages

end XdrBindings.Merge
