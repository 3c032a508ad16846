import XdrBindings.Merge.Imports
import XdrBindings.Proofs.Merge.Blocks

/-!
# Imports that are reconciled already

Reconciling the imports of a text a second time changes nothing, if the first and the last
directive that were written begin with `import` and a space: then the lines that are replaced
are the directives that were written.

## Main results

* `reconcile_around` — reconciling what is reconciled, between directives that were looked at.
* `IsReconciled.withImports_eq` — a text whose import lines are what reconciling writes.
* `exists_isReconciled` — the import lines of a text behind reconciling.
* `IsReconciled.exists_withHeader` — the import lines behind a header.
-/

namespace XdrBindings.Merge

open Code

/-! ## Reconciling -/

theorem addImport_eq_or (modules imports : List Text) (directive : Text) :
    addImport modules imports directive = imports ∨
      addImport modules imports directive = imports ++ [directive] := by
  unfold addImport
  split
  · exact .inl rfl
  · split
    · exact .inl rfl
    · exact .inr rfl

/-- What a fold adds is added again where it is not there. -/
theorem foldl_addImport (modules : List Text) (directives imports : List Text) :
    ∃ more, directives.foldl (addImport modules) imports = imports ++ more ∧
      more.foldl (addImport modules) imports = imports ++ more ∧
      ∀ directive ∈ more, directive ∈ directives := by
  induction directives generalizing imports with
  | nil => exact ⟨[], (List.append_nil _).symm, (List.append_nil _).symm, nofun⟩
  | cons directive rest ih =>
    rw [List.foldl_cons]
    rcases addImport_eq_or modules imports directive with hSame | hAdded
    · obtain ⟨more, hFold, hAgain, hMem⟩ := ih imports
      rw [hSame]
      exact ⟨more, hFold, hAgain, fun other hOther => List.mem_cons_of_mem _ (hMem other hOther)⟩
    · obtain ⟨more, hFold, hAgain, hMem⟩ := ih (imports ++ [directive])
      refine ⟨directive :: more, ?_, ?_, ?_⟩
      · rw [hAdded, hFold, List.append_assoc]
        rfl
      · rw [List.foldl_cons, hAdded, hAgain, List.append_assoc]
        rfl
      · intro other hOther
        rcases List.mem_cons.mp hOther with rfl | hRest
        · exact List.mem_cons_self
        · exact List.mem_cons_of_mem _ (hMem other hRest)

/-- A directive that was looked at is known. -/
theorem addImport_of_mem {modules directives : List Text} (imports : List Text)
    {directive : Text} (h : directive ∈ directives) :
    addImport modules (directives.foldl (addImport modules) imports) directive =
      directives.foldl (addImport modules) imports := by
  have hKnown (known more : List Text) :
      addImport modules (addImport modules known directive ++ more) directive =
        addImport modules known directive ++ more := by
    unfold addImport
    cases importPath? directive with
    | none => rfl
    | some path =>
      dsimp only
      split
      · rename_i hSkip
        rw [if_pos]
        simp only [Bool.or_eq_true, List.contains_iff_mem, List.mem_append] at hSkip ⊢
        rcases hSkip with hModule | hMem
        · exact .inl hModule
        · exact .inr (.inl hMem)
      · rw [if_pos]
        simp
  obtain ⟨front, back, rfl⟩ := List.append_of_mem h
  rw [List.foldl_append, List.foldl_cons]
  obtain ⟨more, hFold, -, -⟩ := foldl_addImport modules back
    (addImport modules (front.foldl (addImport modules) imports) directive)
  rw [hFold]
  exact hKnown _ _

/-- Directives that are known are not added. -/
theorem foldl_addImport_eq_self {modules directives imports : List Text}
    (h : ∀ directive ∈ directives, addImport modules imports directive = imports) :
    directives.foldl (addImport modules) imports = imports := by
  induction directives with
  | nil => rfl
  | cons directive rest ih =>
    rw [List.foldl_cons, h directive List.mem_cons_self]
    exact ih fun other hMem => h other (List.mem_cons_of_mem _ hMem)

theorem addImport_of_mem_imports {modules imports : List Text} {directive : Text}
    (h : directive ∈ imports) : addImport modules imports directive = imports := by
  unfold addImport
  split
  · rfl
  · rw [List.contains_iff_mem.mpr h, Bool.or_true]
    rfl

/-- Reconciling gives the same list again, where the directives that were looked at first and
last stand around it. -/
theorem reconcile_around (kept front middle back : List Text) :
    reconcile kept (front ++ (reconcile kept (front ++ (middle ++ back)) ++ back)) =
      reconcile kept (front ++ (middle ++ back)) := by
  unfold reconcile
  generalize (kept.filterMap importPath?).map moduleName = modules
  have hBack : ∀ directive ∈ back,
      addImport modules ((front ++ (middle ++ back)).foldl (addImport modules) kept) directive =
        (front ++ (middle ++ back)).foldl (addImport modules) kept :=
    fun directive hMem =>
      addImport_of_mem kept (List.mem_append_right _ (List.mem_append_right _ hMem))
  obtain ⟨first, hFirst, -, -⟩ := foldl_addImport modules front kept
  obtain ⟨more, hMore, hAgain, -⟩ := foldl_addImport modules (middle ++ back) (kept ++ first)
  have hOnce : (front ++ (middle ++ back)).foldl (addImport modules) kept =
      kept ++ first ++ more := by
    rw [List.foldl_append, hFirst, hMore]
  rw [hOnce] at hBack ⊢
  have hSame : (kept ++ first).foldl (addImport modules) (kept ++ first) = kept ++ first :=
    foldl_addImport_eq_self fun directive hMem => addImport_of_mem_imports hMem
  rw [List.foldl_append, hFirst, List.foldl_append, List.foldl_append, hSame, hAgain]
  exact foldl_addImport_eq_self hBack

/-- What is kept may stand in front. -/
theorem reconcile_append_of_subset {kept front : List Text} (h : ∀ line ∈ front, line ∈ kept)
    (back : List Text) : reconcile kept (front ++ back) = reconcile kept back := by
  unfold reconcile
  rw [List.foldl_append]
  congr 1
  exact foldl_addImport_eq_self fun directive hMem => addImport_of_mem_imports (h directive hMem)

theorem mem_of_mem_reconcile {kept directives : List Text} {directive : Text}
    (h : directive ∈ reconcile kept directives) : directive ∈ kept ∨ directive ∈ directives := by
  obtain ⟨more, hFold, -, hMem⟩ :=
    foldl_addImport ((kept.filterMap importPath?).map moduleName) directives kept
  unfold reconcile at h
  rw [hFold] at h
  rcases List.mem_append.mp h with hKept | hMore
  · exact .inl hKept
  · exact .inr (hMem directive hMore)

/-! ## Import lines -/

/-- A line that no reconciling replaces or takes for an import. -/
def IsOtherLine (line : Text) : Prop :=
  isImportLine line = false ∧ isImport (Text.trim line) = false

instance (line : Text) : Decidable (IsOtherLine line) :=
  inferInstanceAs (Decidable (isImportLine line = false ∧ isImport (Text.trim line) = false))

theorem directivesOf_eq_nil {lines : List Text} (h : ∀ line ∈ lines, IsOtherLine line) :
    directivesOf lines = [] := by
  apply List.filter_eq_nil_iff.mpr
  intro directive hMem
  obtain ⟨line, hLine, rfl⟩ := List.mem_map.mp hMem
  rw [(h line hLine).2]
  decide

/-- Directives of which the first and the last one stand on an import line. -/
structure IsImportBlock (imports : List Text) : Prop where
  directives : ∀ directive ∈ imports, IsDirective directive
  first : ∃ directive ∈ imports.head?, isImportLine directive = true
  last : ∃ directive ∈ imports.getLast?, isImportLine directive = true

/-- The pieces of a text that directives are written into. -/
theorem pieces_around {before imports behind : List Text}
    (hImports : ∀ directive ∈ imports, IsDirective directive) (hSome : imports ≠ [])
    (hBefore : ∀ line ∈ before, '\n' ∉ line) (hBehind : ∀ line ∈ behind, '\n' ∉ line) :
    Text.pieces (Text.ofPieces (before ++ (imports ++ behind))) =
      before ++ (imports ++ behind) := by
  apply Text.pieces_ofPieces
  · intro piece hMem
    rcases List.mem_append.mp hMem with hFront | hMem
    · exact hBefore piece hFront
    · rcases List.mem_append.mp hMem with hImport | hBack
      · exact (hImports piece hImport).newline
      · exact hBehind piece hBack
  · simp [hSome]

theorem isDirective_of_mem_reconcile {kept : List Text} {text directive : Text}
    (hKept : ∀ directive ∈ kept, IsDirective directive)
    (h : directive ∈ reconcile kept (importsOf text)) : IsDirective directive := by
  rcases mem_of_mem_reconcile h with hOld | hNew
  · exact hKept directive hOld
  · exact isDirective_of_mem_importsOf hNew

theorem reconcile_ne_nil {kept : List Text} (hSome : kept ≠ []) (directives : List Text) :
    reconcile kept directives ≠ [] := by
  intro hNil
  have hPrefix := prefix_reconcile kept directives
  rw [hNil] at hPrefix
  exact hSome (List.prefix_nil.mp hPrefix)

/-- What reconciling writes begins with what is kept. -/
theorem head?_reconcile {kept : List Text} (hSome : kept ≠ []) (directives : List Text) :
    (reconcile kept directives).head? = kept.head? := by
  obtain ⟨rest, hRest⟩ := prefix_reconcile kept directives
  rw [← hRest, List.head?_append_of_ne_nil _ hSome]

/-! ## Reconciling again -/

/-- The lines from the first through the last import line of a text are what reconciling
writes. -/
structure IsReconciled (kept : List Text) (text : Text) (before imports behind : List Text) :
    Prop where
  pieces_eq : text.pieces = before ++ (imports ++ behind)
  block : IsImportBlock imports
  reconcile_eq : reconcile kept (directivesOf before ++ (imports ++ directivesOf behind)) = imports
  before : ∀ line ∈ before, isImportLine line = false
  behind : ∀ line ∈ behind, isImportLine line = false

section

variable {kept before imports behind : List Text} {text : Text}

/-- What stands around a block that no import line stands around. -/
theorem IsImportBlock.takeWhile_eq (h : IsImportBlock imports)
    (hBefore : ∀ line ∈ before, isImportLine line = false)
    (hBehind : ∀ line ∈ behind, isImportLine line = false) :
    (before ++ (imports ++ behind)).takeWhile (fun line => !isImportLine line) = before ∧
      ((before ++ (imports ++ behind)).reverse.takeWhile fun line =>
        !isImportLine line).reverse = behind := by
  have hOther {lines : List Text} (hLines : ∀ line ∈ lines, isImportLine line = false) :
      ∀ line ∈ lines, (!isImportLine line) = true := by
    intro line hMem
    rw [hLines line hMem]
    rfl
  obtain ⟨first, hHead, hFirst⟩ := h.first
  obtain ⟨last, hGetLast, hLast⟩ := h.last
  constructor
  · obtain ⟨rest, hCons⟩ := List.head?_eq_some_iff.mp hHead
    rw [List.takeWhile_append_of_pos (hOther hBefore), hCons, List.cons_append,
      List.takeWhile_cons_of_neg (by simp [hFirst]), List.append_nil]
  · obtain ⟨init, hConcat⟩ := List.getLast?_eq_some_iff.mp hGetLast
    have hReverse : (before ++ (imports ++ behind)).reverse =
        behind.reverse ++ last :: (init.reverse ++ before.reverse) := by
      rw [hConcat]
      simp
    have hBehindReverse : ∀ line ∈ behind.reverse, (!isImportLine line) = true :=
      fun line hMem => hOther hBehind line (List.mem_reverse.mp hMem)
    rw [hReverse, List.takeWhile_append_of_pos hBehindReverse,
      List.takeWhile_cons_of_neg (by simp [hLast]), List.append_nil, List.reverse_reverse]

/-- A text whose import lines are what reconciling writes stays as it is. -/
theorem IsReconciled.withImports_eq (h : IsReconciled kept text before imports behind) :
    withImports kept text = text := by
  have hImports : importsOf text =
      directivesOf before ++ (imports ++ directivesOf behind) := by
    rw [importsOf_eq, h.pieces_eq, directivesOf_append, directivesOf_append,
      directivesOf_self h.block.directives]
  have hAny : (before ++ (imports ++ behind)).any isImportLine = true := by
    obtain ⟨first, hHead, hFirst⟩ := h.block.first
    apply List.any_eq_true.mpr
    have hMem := List.mem_of_mem_head? hHead
    exact ⟨first, by simp [hMem], hFirst⟩
  obtain ⟨hTake, hDrop⟩ := h.block.takeWhile_eq h.before h.behind
  unfold withImports putImports
  rw [hImports, h.reconcile_eq, h.pieces_eq]
  dsimp only
  rw [if_pos hAny, hTake, hDrop, List.append_assoc, ← h.pieces_eq, Text.ofPieces_pieces]

end

/-! ## Reconciling once -/

/-- A list from the first entry with a property on. -/
theorem exists_eq_takeWhile_cons {α : Type} {p : α → Bool} {entries : List α}
    (h : entries.any p = true) :
    ∃ first rest, entries = (entries.takeWhile fun entry => !p entry) ++ first :: rest ∧
      p first = true := by
  have hSplit := List.takeWhile_append_dropWhile (p := fun entry => !p entry) (l := entries)
  cases hRest : entries.dropWhile fun entry => !p entry with
  | nil =>
    obtain ⟨entry, hEntry, hProperty⟩ := List.any_eq_true.mp h
    have hNo := List.dropWhile_eq_nil_iff.mp hRest entry hEntry
    rw [hProperty] at hNo
    cases hNo
  | cons first rest =>
    have hHead := List.head?_dropWhile_not (fun entry => !p entry) entries
    rw [hRest] at hSplit hHead
    exact ⟨first, rest, hSplit.symm, by simpa using hHead⟩

/-- A list from the first through the last entry with a property, and what stands around. -/
theorem exists_eq_takeWhile_append {α : Type} {p : α → Bool} {entries : List α}
    (h : entries.any p = true) :
    ∃ middle, entries = (entries.takeWhile fun entry => !p entry) ++
        (middle ++ (entries.reverse.takeWhile fun entry => !p entry).reverse) ∧
      (∃ first ∈ middle.head?, p first = true) ∧ ∃ last ∈ middle.getLast?, p last = true := by
  obtain ⟨first, rest, hEntries, hFirst⟩ := exists_eq_takeWhile_cons h
  have hAny : (first :: rest).reverse.any p = true := by
    rw [List.any_reverse, List.any_cons, hFirst, Bool.true_or]
  obtain ⟨last, others, hReverse, hLast⟩ := exists_eq_takeWhile_cons hAny
  -- what stands behind is found from the end, without a look at what stands in front
  have hSame : (entries.reverse.takeWhile fun entry => !p entry) =
      (first :: rest).reverse.takeWhile fun entry => !p entry := by
    have hBehind : ∀ entry ∈ (first :: rest).reverse.takeWhile fun entry => !p entry,
        (!p entry) = true := List.all_eq_true.mp List.all_takeWhile
    generalize ((first :: rest).reverse.takeWhile fun entry => !p entry) = behind at *
    rw [hEntries, List.reverse_append, hReverse, List.append_assoc,
      List.takeWhile_append_of_pos hBehind, List.cons_append,
      List.takeWhile_cons_of_neg (by simp [hLast]), List.append_nil]
  have hMiddle : first :: rest = (last :: others).reverse ++
      ((first :: rest).reverse.takeWhile fun entry => !p entry).reverse := by
    rw [← List.reverse_append, ← hReverse, List.reverse_reverse]
  refine ⟨(last :: others).reverse, ?_, ?_, last, by simp, hLast⟩
  · rw [hSame, ← hMiddle]
    exact hEntries
  · refine ⟨first, ?_, hFirst⟩
    have hHead := congrArg List.head? hMiddle
    rw [List.head?_append_of_ne_nil _ (by simp)] at hHead
    exact hHead.symm

section

variable {kept : List Text} {text : Text}

variable (hKept : ∀ directive ∈ kept, IsDirective directive) (hSome : kept ≠ [])

include hKept hSome

/-- Reconciling replaces the lines from the first through the last import line. -/
theorem exists_pieces_withImports_of_any (hAny : text.pieces.any isImportLine = true) :
    ∃ before middle behind, text.pieces = before ++ (middle ++ behind) ∧
      Text.pieces (withImports kept text) =
        before ++ (reconcile kept (importsOf text) ++ behind) ∧
      (∀ line ∈ before, isImportLine line = false) ∧
      (∀ line ∈ behind, isImportLine line = false) ∧
      (∃ first ∈ middle.head?, isImportLine first = true) ∧
      ∃ last ∈ middle.getLast?, isImportLine last = true := by
  obtain ⟨middle, hMiddle, hFirst, hLast⟩ := exists_eq_takeWhile_append hAny
  have hLine {line : Text} (hMem : line ∈ text.pieces) : '\n' ∉ line :=
    Text.newline_not_mem_of_mem_pieces hMem
  refine ⟨_, middle, _, hMiddle, ?_, ?_, ?_, hFirst, hLast⟩
  · unfold withImports putImports
    dsimp only
    rw [if_pos hAny, List.append_assoc]
    apply pieces_around (fun directive hMem => isDirective_of_mem_reconcile hKept hMem)
      (reconcile_ne_nil hSome _)
    · intro line hMem
      exact hLine ((List.takeWhile_prefix _).sublist.subset hMem)
    · intro line hMem
      have hReverse := (List.takeWhile_prefix _).sublist.subset (List.mem_reverse.mp hMem)
      exact hLine (List.mem_reverse.mp hReverse)
  · intro line hMem
    simpa using List.all_eq_true.mp List.all_takeWhile line hMem
  · intro line hMem
    simpa using List.all_eq_true.mp List.all_takeWhile line (List.mem_reverse.mp hMem)

/-- Where there is no import line, it writes them in front of the first class line. -/
theorem exists_pieces_withImports_of_none (hNone : text.pieces.any isImportLine = false)
    {position : Nat} (hHead : firstHead? text = some position) :
    ∃ behind, text.pieces = Text.rows (text.take position) ++ behind ∧
      Text.pieces (withImports kept text) =
        Text.rows (text.take position) ++ (reconcile kept (importsOf text) ++ [] :: behind) := by
  have hPieces :
      text.pieces = Text.rows (text.take position) ++ Text.pieces (text.drop position) := by
    rw [← Text.pieces_append (endsLine_of_firstHead? hHead), List.take_append_drop]
  have hIndex : (Text.rows (text.take position)).length = text.lineOf position - 1 :=
    Text.length_rows _
  have hLine {line : Text} (hMem : line ∈ text.pieces) : '\n' ∉ line :=
    Text.newline_not_mem_of_mem_pieces hMem
  refine ⟨_, hPieces, ?_⟩
  unfold withImports putImports
  dsimp only
  rw [hNone, hHead, if_neg (by decide)]
  dsimp only
  rw [hPieces] at hLine ⊢
  rw [List.take_left' hIndex, List.drop_left' hIndex, List.append_assoc, List.append_assoc]
  apply pieces_around (fun directive hMem => isDirective_of_mem_reconcile hKept hMem)
    (reconcile_ne_nil hSome _)
  · intro line hMem
    exact hLine (List.mem_append_left _ hMem)
  · intro line hMem
    rcases List.mem_cons.mp hMem with rfl | hRest
    · nofun
    · exact hLine (List.mem_append_right _ hRest)

/-- Import lines that reconciling leaves as they are begin and end with an import line. -/
theorem isImportBlock_of_withImports_eq (hAny : text.pieces.any isImportLine = true)
    (hSame : withImports kept text = text) : IsImportBlock (reconcile kept (importsOf text)) := by
  obtain ⟨before, middle, behind, hPieces, hWritten, -, -, hFirst, hLast⟩ :=
    exists_pieces_withImports_of_any hKept hSome hAny
  rw [hSame, hPieces] at hWritten
  have hMiddle := List.append_cancel_right (List.append_cancel_left hWritten)
  rw [hMiddle] at hFirst hLast
  exact ⟨fun directive hMem => isDirective_of_mem_reconcile hKept hMem, hFirst, hLast⟩

/-- Imports that are written in front of the first class line are new lines. -/
theorem withImports_ne_of_firstHead? (hNone : text.pieces.any isImportLine = false)
    {position : Nat} (hHead : firstHead? text = some position) : withImports kept text ≠ text := by
  intro hSame
  obtain ⟨behind, hPieces, hWritten⟩ :=
    exists_pieces_withImports_of_none hKept hSome hNone hHead
  rw [hSame, hPieces] at hWritten
  have hLength := congrArg List.length hWritten
  simp only [List.length_append, List.length_cons] at hLength
  omega

/-- Behind reconciling, the import lines of a text are what was written, unless there is no
place to write to. -/
theorem exists_isReconciled
    (hBlock : withImports kept text ≠ text → IsImportBlock (reconcile kept (importsOf text))) :
    withImports kept text = text ∧ firstHead? text = none ∨
      ∃ before imports behind,
        IsReconciled kept (withImports kept text) before imports behind := by
  cases hAny : text.pieces.any isImportLine with
  | true =>
    right
    have hWritten : IsImportBlock (reconcile kept (importsOf text)) := by
      by_cases hSame : withImports kept text = text
      · exact isImportBlock_of_withImports_eq hKept hSome hAny hSame
      · exact hBlock hSame
    obtain ⟨before, middle, behind, hPieces, hAround, hBefore, hBehind, -, -⟩ :=
      exists_pieces_withImports_of_any hKept hSome hAny
    refine ⟨before, _, behind, hAround, hWritten, ?_, hBefore, hBehind⟩
    rw [importsOf_eq, hPieces, directivesOf_append, directivesOf_append]
    exact reconcile_around _ _ _ _
  | false =>
    have hOther {line : Text} (hMem : line ∈ text.pieces) : isImportLine line = false := by
      simpa using List.any_eq_false.mp hAny line hMem
    cases hHead : firstHead? text with
    | none =>
      refine .inl ⟨?_, rfl⟩
      unfold withImports putImports
      dsimp only
      rw [hAny, hHead]
      rfl
    | some position =>
      right
      have hWritten := hBlock (withImports_ne_of_firstHead? hKept hSome hAny hHead)
      obtain ⟨behind, hPieces, hAround⟩ :=
        exists_pieces_withImports_of_none hKept hSome hAny hHead
      refine ⟨_, _, [] :: behind, hAround, hWritten, ?_, ?_, ?_⟩
      · have hAgain := reconcile_around kept (directivesOf (Text.rows (text.take position))) []
          (directivesOf behind)
        rw [List.nil_append, ← directivesOf_append, ← hPieces, ← importsOf_eq] at hAgain
        exact hAgain
      · intro line hMem
        apply hOther
        rw [hPieces]
        exact List.mem_append_left _ hMem
      · intro line hMem
        rcases List.mem_cons.mp hMem with rfl | hRest
        · rfl
        · apply hOther
          rw [hPieces]
          exact List.mem_append_right _ hRest

end

/-! ## A header in front -/

section

variable {kept before imports behind : List Text} {text header : Text} {position : Nat}

/-- A header stands in front of an empty line and the import or class line. -/
theorem exists_pieces_withHeader (header : Text) (hHead : firstHead? text = some position) :
    ∃ line others, text.pieces = Text.rows (text.take position) ++ line :: others ∧
      Text.pieces (withHeader header text) =
        header.pieces ++ [] :: Text.trimStart line :: others := by
  obtain ⟨line, others, hDrop, hTrimmed⟩ := exists_pieces_of_firstHead? hHead
  refine ⟨line, others, ?_, ?_⟩
  · rw [← hDrop, ← Text.pieces_append (endsLine_of_firstHead? hHead), List.take_append_drop]
  · have hText : withHeader header text =
        header ++ '\n' :: ([] ++ '\n' :: Text.trimStart (text.drop position)) := by
      unfold withHeader
      rw [hHead]
      simp
    rw [hText, Text.pieces_newline, Text.pieces_newline, hTrimmed]
    rfl

/-- Lines that hold no import line are some of those in front of the first one. -/
theorem IsReconciled.exists_middle (h : IsReconciled kept text before imports behind)
    {rows others : List Text} (hPieces : text.pieces = rows ++ others)
    (hRows : ∀ row ∈ rows, isImportLine row = false) :
    ∃ middle, before = rows ++ middle ∧ others = middle ++ (imports ++ behind) := by
  obtain ⟨first, hFirstMem, hFirst⟩ := h.block.first
  obtain ⟨rest, hCons⟩ := List.head?_eq_some_iff.mp hFirstMem
  rcases List.append_eq_append_iff.mp (hPieces.symm.trans h.pieces_eq) with
    ⟨middle, hFront, hBack⟩ | ⟨middle, hFront, hBack⟩
  · exact ⟨middle, hFront, hBack⟩
  · cases middle with
    | nil => exact ⟨[], by rw [hFront]; simp, by rw [hBack]; rfl⟩
    | cons other middle =>
      rw [hCons] at hBack
      obtain ⟨rfl, -⟩ := List.cons.inj hBack
      have hNo := hRows first (by rw [hFront]; simp)
      rw [hFirst] at hNo
      cases hNo

/-- Taking the indentation off the first line leaves the block and the directives in front
of it as they are. -/
theorem IsReconciled.exists_trimmed (h : IsReconciled kept text before imports behind)
    {middle : List Text} (hMiddle : ∀ line ∈ middle, isImportLine line = false) {line : Text}
    {others : List Text} (hLines : line :: others = middle ++ (imports ++ behind)) :
    ∃ trimmed, Text.trimStart line :: others = trimmed ++ (imports ++ behind) ∧
      directivesOf trimmed = directivesOf middle ∧
      ∀ other ∈ trimmed, isImportLine other = false := by
  cases middle with
  | nil =>
    -- the line is the first import line, which is not indented
    obtain ⟨first, hFirstMem, -⟩ := h.block.first
    obtain ⟨rest, hCons⟩ := List.head?_eq_some_iff.mp hFirstMem
    have hTrim : Text.trimStart first = first := by
      have hDirective := h.block.directives first (List.mem_of_mem_head? hFirstMem)
      rw [← hDirective.trim_eq, Text.trimStart_trim]
    refine ⟨[], ?_, rfl, nofun⟩
    rw [← hLines]
    rw [hCons] at hLines
    rw [(List.cons.inj hLines).1, hTrim]
  | cons other middle =>
    obtain ⟨rfl, hOthers⟩ := List.cons.inj hLines
    refine ⟨Text.trimStart line :: middle, ?_, ?_, ?_⟩
    · rw [hOthers]
      rfl
    · unfold directivesOf
      rw [List.map_cons, Text.trim_trimStart]
      rfl
    · intro other hMem
      rcases List.mem_cons.mp hMem with rfl | hRest
      · have hLine := hMiddle line List.mem_cons_self
        unfold isImportLine at hLine ⊢
        rw [Text.trimStart_trimStart]
        exact hLine
      · exact hMiddle other (List.mem_cons_of_mem _ hRest)

/-- A header leaves the import lines as they are, if they stand behind the place that it is
put to. -/
theorem IsReconciled.exists_withHeader (h : IsReconciled kept text before imports behind)
    (hHeader : ∀ line ∈ header.pieces, isImportLine line = false)
    (hKept : ∀ directive ∈ importsOf header, directive ∈ kept)
    (hHead : firstHead? text = some position)
    (hBefore : ∀ line ∈ Text.pieces (text.take position), IsOtherLine line) :
    ∃ before, IsReconciled kept (withHeader header text) before imports behind := by
  obtain ⟨line, others, hPieces, hWritten⟩ := exists_pieces_withHeader header hHead
  have hRows : ∀ row ∈ Text.rows (text.take position), IsOtherLine row :=
    fun row hMem => hBefore row (List.dropLast_subset _ hMem)
  obtain ⟨middle, hFront, hLines⟩ := h.exists_middle hPieces fun row hMem => (hRows row hMem).1
  have hMiddle : ∀ line ∈ middle, isImportLine line = false := by
    intro line hMem
    apply h.before
    rw [hFront]
    exact List.mem_append_right _ hMem
  obtain ⟨trimmed, hTrimmed, hDirectives, hTrimmedLine⟩ := h.exists_trimmed hMiddle hLines
  refine ⟨header.pieces ++ [] :: trimmed, ?_, h.block, ?_, ?_, h.behind⟩
  · rw [hWritten, hTrimmed]
    simp
  · -- the directives of the header are kept, and none stood in front of the position
    have hEmpty : directivesOf ([] :: trimmed) = directivesOf trimmed := rfl
    have hSame : directivesOf before = directivesOf trimmed := by
      rw [hFront, directivesOf_append, directivesOf_eq_nil hRows, List.nil_append, hDirectives]
    rw [directivesOf_append, List.append_assoc, hEmpty, ← hSame, reconcile_append_of_subset,
      h.reconcile_eq]
    intro directive hMem
    rw [← importsOf_eq] at hMem
    exact hKept directive hMem
  · intro other hMem
    rcases List.mem_append.mp hMem with hIn | hMem
    · exact hHeader other hIn
    · rcases List.mem_cons.mp hMem with rfl | hMem
      · rfl
      · exact hTrimmedLine other hMem

end

end XdrBindings.Merge
