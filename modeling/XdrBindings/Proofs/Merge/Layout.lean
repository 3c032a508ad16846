import XdrBindings.Proofs.Merge.GeneratedCode

/-!
# Imports and a header that read back

The imports and the header of a merged text are those that the next merge takes for old ones.
They are written again as they are, if each is read back as it was written: if every import
begins with `import` and a space, and if imports and a header that the old file does not have
stand in the generated text as a merge would write them.

## Main results

* `reconcile_reconcile` — reconciled imports, reconciled with the generated ones again.
* `withImports_importsOf_withImports` — imports that are read back are written as they were.
* `headerOf_withHeader` — a header that is read back.
* `Stages.KeepsLayout.text_eq_of_carried_eq` — imports and header of the next merge.
-/

namespace XdrBindings.Merge

open Code

/-! ## Imports -/

/-- Reconciled imports hold what is to be reconciled. -/
theorem reconcile_reconcile (kept generated : List Text) :
    reconcile (reconcile kept generated) generated = reconcile kept generated := by
  obtain ⟨more, hMore⟩ := prefix_reconcile kept generated
  refine foldl_addImport_eq_self fun directive hMem => ?_
  have hKnown : addImport ((kept.filterMap importPath?).map moduleName) (reconcile kept generated)
      directive = reconcile kept generated := addImport_of_mem kept hMem
  unfold addImport at hKnown ⊢
  cases hPath : importPath? directive with
  | none => rfl
  | some path =>
    rw [hPath] at hKnown
    dsimp only at hKnown ⊢
    split at hKnown
    · rename_i hSkip
      rw [if_pos]
      rcases Bool.or_eq_true_iff.mp hSkip with hModule | hThere
      · -- the modules of the kept imports are among those of the reconciled ones
        rw [← hMore, List.filterMap_append, List.map_append, Bool.or_eq_true]
        exact .inl (List.contains_iff_mem.mpr
          (List.mem_append_left _ (List.contains_iff_mem.mp hModule)))
      · rw [hThere, Bool.or_true]
    · exact absurd hKnown (by simp)

theorem reconcile_self (imports : List Text) : reconcile imports imports = imports :=
  foldl_addImport_eq_self fun _ hMem => addImport_of_mem_imports hMem

theorem putImports_eq_self {text : Text} (hNone : text.pieces.any isImportLine = false)
    (hHead : firstHead? text = none) (imports : List Text) : putImports imports text = text := by
  unfold putImports
  dsimp only
  rw [hNone, hHead]
  rfl

/-- Lines that are no import lines hold no directive, where directives are import lines. -/
theorem directivesOf_eq_nil_of_isImportLine {lines : List Text}
    (hNo : ∀ line ∈ lines, isImportLine line = false)
    (hLines : ∀ line ∈ lines, isImport (Text.trim line) = true → isImportLine line = true) :
    directivesOf lines = [] := by
  refine directivesOf_eq_nil fun line hMem => ⟨hNo line hMem, ?_⟩
  cases hImport : isImport (Text.trim line) with
  | false => rfl
  | true =>
    have hLine := hLines line hMem hImport
    rw [hNo line hMem] at hLine
    cases hLine

section

variable {kept : List Text} {text : Text}
variable (hKept : ∀ directive ∈ kept, IsDirective directive) (hSome : kept ≠ [])

include hKept hSome

/-- Imports are written and are all there is, or there is no place for them. -/
theorem importsOf_withImports (hLines : ∀ line ∈ Text.pieces (withImports kept text),
      isImport (Text.trim line) = true → isImportLine line = true) :
    importsOf (withImports kept text) = reconcile kept (importsOf text) ∨
      text.pieces.any isImportLine = false ∧ firstHead? text = none := by
  have hBlock : directivesOf (reconcile kept (importsOf text)) = reconcile kept (importsOf text) :=
    directivesOf_self fun _ hMem => isDirective_of_mem_reconcile hKept hMem
  cases hAny : text.pieces.any isImportLine with
  | true =>
    obtain ⟨before, middle, behind, -, hWritten, hBefore, hBehind, -, -⟩ :=
      exists_pieces_withImports_of_any hKept hSome hAny
    rw [hWritten] at hLines
    left
    rw [importsOf_eq, hWritten, directivesOf_append, directivesOf_append, hBlock,
      directivesOf_eq_nil_of_isImportLine hBefore fun line hMem =>
        hLines line (List.mem_append_left _ hMem),
      directivesOf_eq_nil_of_isImportLine hBehind fun line hMem =>
        hLines line (List.mem_append_right _ (List.mem_append_right _ hMem)),
      List.nil_append, List.append_nil]
  | false =>
    cases hHead : firstHead? text with
    | none => exact .inr ⟨rfl, rfl⟩
    | some position =>
      obtain ⟨behind, hPieces, hWritten⟩ := exists_pieces_withImports_of_none hKept hSome hAny hHead
      have hNo : ∀ line ∈ Text.rows (text.take position) ++ behind, isImportLine line = false :=
        fun line hMem => Bool.eq_false_iff.mpr (List.any_eq_false.mp hAny line (hPieces ▸ hMem))
      rw [hWritten] at hLines
      have hFront := directivesOf_eq_nil_of_isImportLine
        (fun line hMem => hNo line (List.mem_append_left _ hMem))
        fun line hMem => hLines line (List.mem_append_left _ hMem)
      have hBehind : directivesOf behind = [] := directivesOf_eq_nil_of_isImportLine
        (fun line hMem => hNo line (List.mem_append_right _ hMem))
        fun line hMem =>
          hLines line
            (List.mem_append_right _ (List.mem_append_right _ (List.mem_cons_of_mem _ hMem)))
      have hEmpty : directivesOf ([] :: behind) = directivesOf behind := rfl
      left
      rw [importsOf_eq, hWritten, directivesOf_append, directivesOf_append, hBlock, hFront, hEmpty,
        hBehind, List.nil_append, List.append_nil]

/-- Imports that are read back are written as they were. -/
theorem withImports_importsOf_withImports (hLines : ∀ line ∈ Text.pieces (withImports kept text),
      isImport (Text.trim line) = true → isImportLine line = true) :
    withImports (importsOf (withImports kept text)) text = withImports kept text := by
  rcases importsOf_withImports hKept hSome hLines with hImports | ⟨hNone, hHead⟩
  · rw [hImports]
    unfold withImports
    rw [reconcile_reconcile]
  · unfold withImports
    rw [putImports_eq_self hNone hHead, putImports_eq_self hNone hHead]

end

/-- Imports on lines of their own right below one another are written as they are. -/
theorem withImports_importsOf {text : Text} (hSome : importsOf text ≠ [])
    (hBlock : importBlock text = importsOf text) : withImports (importsOf text) text = text := by
  have hKept : ∀ directive ∈ importsOf text, IsDirective directive := fun _ hMem =>
    isDirective_of_mem_importsOf hMem
  have hAny : text.pieces.any isImportLine = true := by
    cases hAny : text.pieces.any isImportLine with
    | true => rfl
    | false =>
      rw [← hBlock] at hSome
      exact absurd (importBlock_eq_nil hAny) hSome
  obtain ⟨before, middle, behind, hPieces, hWritten, hBefore, hBehind, hFirst, hLast⟩ :=
    exists_pieces_withImports_of_any hKept hSome hAny
  obtain ⟨-, hMiddle⟩ := importBlock_eq hPieces hBefore hBehind hFirst hLast
  rw [reconcile_self, ← hBlock, hMiddle, ← hPieces] at hWritten
  rw [← Text.ofPieces_pieces (withImports _ _), ← hBlock, hMiddle, hWritten, Text.ofPieces_pieces]

/-! ## Header -/

theorem of_headerOf {text header : Text} (h : headerOf text = some header) :
    header ≠ [] ∧ Text.trim header = header := by
  unfold headerOf at h
  split at h
  · cases h
  · split at h
    · cases h
    · rename_i hSome
      cases h
      exact ⟨fun hNil => hSome hNil, Text.trim_trim _⟩

theorem headerOf_of_firstHead?_eq_none {text : Text} (h : firstHead? text = none) :
    headerOf text = none := by
  unfold headerOf
  rw [h]

section

variable {text header : Text} {position : Nat} (hHead : firstHead? text = some position)

include hHead

theorem withHeader_eq (header : Text) :
    withHeader header text = header ++ ['\n', '\n'] ++ Text.trimStart (text.drop position) := by
  unfold withHeader
  rw [hHead]

/-- A header is read back if what stands behind it is the first import or class line. -/
theorem headerOf_withHeader (hHeader : header ≠ [] ∧ Text.trim header = header)
    (hAgain : firstHead? (withHeader header text) = some (header.length + 2)) :
    headerOf (withHeader header text) = some header := by
  have hFront : (withHeader header text).take (header.length + 2) = header ++ ['\n', '\n'] := by
    rw [withHeader_eq hHead]
    exact List.take_left' (by simp)
  have hTrim : Text.trim (header ++ ['\n', '\n']) = header := by
    rw [Text.trim_append_of_isBlankText (by decide), hHeader.2]
  unfold headerOf
  rw [hAgain]
  dsimp only
  rw [hFront, hTrim]
  split
  · exact absurd rfl hHeader.1
  · rfl

/-- A header changes no import, if there is none in it and none in what it replaces. -/
theorem importsOf_withHeader (hHeader : ∀ line ∈ header.pieces, IsOtherLine line)
    (hFront : ∀ line ∈ Text.pieces (text.take position), IsOtherLine line) :
    importsOf (withHeader header text) = importsOf text := by
  obtain ⟨line, others, hPieces, hWritten⟩ := exists_pieces_withHeader header hHead
  have hRows : ∀ row ∈ Text.rows (text.take position), IsOtherLine row :=
    fun row hMem => hFront row (List.dropLast_subset _ hMem)
  have hTrim : directivesOf ([] :: Text.trimStart line :: others) =
      directivesOf (line :: others) := by
    have hLine : Text.trim (Text.trimStart line) = Text.trim line := Text.trim_trimStart line
    unfold directivesOf
    rw [List.map_cons, List.map_cons, List.map_cons, hLine]
    rfl
  rw [importsOf_eq, importsOf_eq, hPieces, hWritten, directivesOf_append, directivesOf_append,
    directivesOf_eq_nil hHeader, directivesOf_eq_nil hRows, hTrim]

end

/-! ## The next merge -/

namespace Stages

variable {style : Style} {generated existing : Text}

/-- The imports and the header of the merged text are read back as they were written. -/
@[mk_iff]
structure KeepsLayout (stages : Stages style generated existing) : Prop where
  /-- If imports are written, all imports begin with `import` and a space. -/
  imports : stages.old.imports ≠ [] → ∀ line ∈ stages.imported.pieces,
    isImport (Text.trim line) = true → isImportLine line = true
  /-- If none are, those of the generated text stand right below one another. -/
  ownImports : stages.old.imports = [] → importsOf stages.carried ≠ [] →
    importBlock stages.carried = importsOf stages.carried
  /-- If a header is written, the first import or class line stands right behind it, and
  neither it nor what it replaces has an import. -/
  header : ∀ header ∈ stages.old.header, ∀ position ∈ firstHead? stages.imported,
    firstHead? stages.text = some (header.length + 2) ∧
      (∀ line ∈ header.pieces, IsOtherLine line) ∧
      ∀ line ∈ Text.pieces (stages.imported.take position), IsOtherLine line
  /-- If none is, that of the generated text begins it, with an empty line behind it. -/
  ownHeader : stages.old.header = none → ∀ header ∈ headerOf stages.imported,
    ∀ position ∈ firstHead? stages.imported,
      stages.imported.take position = header ++ ['\n', '\n'] ∧
        ∀ c ∈ (stages.imported.drop position).head?, Text.isBlank c = false

instance (stages : Stages style generated existing) : Decidable stages.KeepsLayout :=
  decidable_of_iff' _ (keepsLayout_iff stages)

variable {stages : Stages style generated existing}

theorem isDirective_of_mem_imports (stages : Stages style generated existing) :
    ∀ directive ∈ stages.old.imports, IsDirective directive := by
  obtain ⟨-, hImports⟩ := OldFile.header_imports_eq stages.read
  exact fun _ hMem => isDirective_of_mem_importsOf (hImports ▸ hMem)

theorem text_eq_withHeader {header : Text} (hHeader : stages.old.header = some header) :
    stages.text = withHeader header stages.imported := by
  rw [stages.text_eq, hHeader]

theorem text_eq_imported (hHeader : stages.old.header = none) :
    stages.text = stages.imported := by
  rw [stages.text_eq, hHeader]

/-- The imports are the same before and behind the header. -/
theorem KeepsLayout.importsOf_text (h : stages.KeepsLayout) :
    importsOf stages.text = importsOf stages.imported := by
  cases hHeader : stages.old.header with
  | none => rw [text_eq_imported hHeader]
  | some header =>
    rw [text_eq_withHeader hHeader]
    cases hHead : firstHead? stages.imported with
    | none =>
      unfold withHeader
      rw [hHead]
    | some position =>
      obtain ⟨-, hLines, hFront⟩ := h.header header hHeader position hHead
      exact importsOf_withHeader hHead hLines hFront

/-- Imports that are read back from the merged text are written as they were. -/
theorem KeepsLayout.withImports_importsOf_text (h : stages.KeepsLayout) :
    (if (importsOf stages.text).isEmpty then stages.carried
      else withImports (importsOf stages.text) stages.carried) = stages.imported := by
  rw [h.importsOf_text]
  by_cases hSome : stages.old.imports = []
  · have hSame : stages.imported = stages.carried := by
      unfold imported
      rw [hSome]
      rfl
    rw [hSame]
    split
    · rfl
    · rename_i hOwn
      have hImports : importsOf stages.carried ≠ [] := fun hNil => hOwn (by rw [hNil]; rfl)
      exact withImports_importsOf hImports (h.ownImports hSome hImports)
  · have hLines := h.imports hSome
    rw [stages.imported_eq hSome] at hLines ⊢
    split
    · rename_i hNone
      have hNil : importsOf (withImports stages.old.imports stages.carried) = [] :=
        List.isEmpty_iff.mp hNone
      rcases importsOf_withImports stages.isDirective_of_mem_imports hSome hLines with
        hImports | ⟨hNo, hHead⟩
      · rw [hNil] at hImports
        exact absurd hImports.symm (reconcile_ne_nil hSome _)
      · exact (putImports_eq_self hNo hHead _).symm
    · exact withImports_importsOf_withImports stages.isDirective_of_mem_imports hSome hLines

/-- A header that is read back from the merged text is written as it was. -/
theorem KeepsLayout.withHeader_headerOf_text (h : stages.KeepsLayout) :
    (match headerOf stages.text with
      | none => stages.imported
      | some header => withHeader header stages.imported) = stages.text := by
  cases hHeader : stages.old.header with
  | none =>
    rw [text_eq_imported hHeader]
    split
    · rfl
    · rename_i header hOwn
      cases hHead : firstHead? stages.imported with
      | none =>
        rw [headerOf_of_firstHead?_eq_none hHead] at hOwn
        cases hOwn
      | some position =>
        obtain ⟨hFront, hBehind⟩ := h.ownHeader hHeader header hOwn position hHead
        have hDrop : Text.trimStart (stages.imported.drop position) =
            stages.imported.drop position := by
          cases hRest : stages.imported.drop position with
          | nil => rfl
          | cons c rest =>
            rw [hRest] at hBehind
            exact Text.trimStart_eq_self (hBehind c rfl)
        rw [withHeader_eq hHead, hDrop, ← hFront, List.take_append_drop]
  | some header =>
    rw [text_eq_withHeader hHeader]
    cases hHead : firstHead? stages.imported with
    | none =>
      have hSame (header : Text) : withHeader header stages.imported = stages.imported := by
        unfold withHeader
        rw [hHead]
      rw [hSame, headerOf_of_firstHead?_eq_none hHead]
    | some position =>
      obtain ⟨hAgain, -, -⟩ := h.header header hHeader position hHead
      rw [text_eq_withHeader hHeader] at hAgain
      obtain ⟨hOld, -⟩ := OldFile.header_imports_eq stages.read
      rw [headerOf_withHeader hHead (of_headerOf (hOld.symm.trans hHeader)) hAgain]

/-- The next merge ends with the merged text, if it gets to the text with the carried classes. -/
theorem KeepsLayout.text_eq_of_carried_eq (h : stages.KeepsLayout)
    (again : Stages style generated stages.text) (hCarried : again.carried = stages.carried) :
    again.text = stages.text := by
  obtain ⟨hHeader, hImports⟩ := OldFile.header_imports_eq again.read
  have hImported : again.imported = stages.imported := by
    unfold imported
    rw [hImports, hCarried]
    exact h.withImports_importsOf_text
  rw [again.text_eq, hHeader, hImported]
  exact h.withHeader_headerOf_text

end Stages

end XdrBindings.Merge
