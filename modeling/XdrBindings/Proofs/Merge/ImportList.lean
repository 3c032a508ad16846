import XdrBindings.Proofs.Merge.Layout

/-!
# The imports of a merged text

The imports of a text are read off its lines without the blanks around them, while the lines that
they are replaced with are found by their first word, and where there are none, by the first import
or class line that is code.  These three ways of finding imports agree as long as every directive
begins with `import` and a space: then the imports that are read behind a merge are the ones that
it wrote.

What it wrote are the imports of the old file in their order, and behind them each import of the
text once, in its order, unless it is among them or one of them has its module.

## Main results

* `foldl_addImport_eq`, `reconcile_eq` — the list that reconciling gives.
* `areSpaced_withImports` — directives begin with `import` and a space behind a merge, too.
* `importsOf_merged` — the imports that are read behind a merge.
* `imports_reconciled` — the list, and merging once more.
-/

namespace XdrBindings.Merge

open Code

/-! ## The list -/

/-- The module that a directive imports. -/
def moduleOf? (directive : Text) : Option Text := (importPath? directive).map moduleName

/-- The directives that are not kept ones and whose modules no kept one imports, each once. -/
def newImports (kept directives : List Text) : List Text :=
  (directives.filter fun directive =>
    !kept.contains directive && !(kept.map moduleOf?).contains (moduleOf? directive)).eraseDups

/-- Directives are added once each, unless they are there or their module is taken. -/
theorem foldl_addImport_eq (modules : List Text) {directives : List Text}
    (h : ∀ directive ∈ directives, (importPath? directive).isSome) (imports : List Text) :
    directives.foldl (addImport modules) imports = imports ++
      (directives.filter fun directive => directive ∉ imports ∧
        moduleOf? directive ∉ modules.map some).eraseDups := by
  induction directives generalizing imports with
  | nil => simp
  | cons directive rest ih =>
    have hRest := ih fun other hMem => h other (List.mem_cons_of_mem _ hMem)
    obtain ⟨path, hPath⟩ := Option.isSome_iff_exists.mp (h directive List.mem_cons_self)
    have hModule : moduleOf? directive ∈ modules.map some ↔ moduleName path ∈ modules := by
      simp [moduleOf?, hPath]
    rw [List.foldl_cons, addImport, hPath, List.filter_cons]
    dsimp only
    by_cases hSkip : moduleName path ∈ modules ∨ directive ∈ imports
    · have hOut : ¬(directive ∉ imports ∧ moduleOf? directive ∉ modules.map some) := by
        rw [hModule]
        tauto
      rw [if_pos (by simpa using hSkip), hRest, if_neg (by simpa using hOut)]
    · obtain ⟨hFree, hNew⟩ := not_or.mp hSkip
      have hIn : directive ∉ imports ∧ moduleOf? directive ∉ modules.map some :=
        ⟨hNew, hModule.not.mpr hFree⟩
      -- what is added from now on differs from what was added here
      have hLater : (rest.filter fun other => other ∉ imports ++ [directive] ∧
            moduleOf? other ∉ modules.map some) =
          (rest.filter fun other => other ∉ imports ∧
            moduleOf? other ∉ modules.map some).filter fun other => !other == directive := by
        rw [List.filter_filter]
        refine List.filter_congr fun other _ => ?_
        by_cases hEq : other = directive <;> simp [hEq]
      rw [if_neg (by simpa using hSkip), hRest, hLater, if_pos (by simpa using hIn),
        List.eraseDups_cons, List.append_assoc]
      rfl

theorem isSome_importPath?_of_isDirective {directive : Text} (h : IsDirective directive) :
    (importPath? directive).isSome := by
  rw [← isImport_trim, h.trim_eq]
  exact h.isImport

/-- Reconciling keeps the old imports and adds the new ones. -/
theorem reconcile_eq {kept directives : List Text}
    (hKept : ∀ directive ∈ kept, IsDirective directive)
    (h : ∀ directive ∈ directives, IsDirective directive) :
    reconcile kept directives = kept ++ newImports kept directives := by
  have hModules : ((kept.filterMap importPath?).map moduleName).map some = kept.map moduleOf? := by
    clear h
    induction kept with
    | nil => rfl
    | cons directive rest ih =>
      obtain ⟨hDirective, hRest⟩ := List.forall_mem_cons.mp hKept
      obtain ⟨path, hPath⟩ :=
        Option.isSome_iff_exists.mp (isSome_importPath?_of_isDirective hDirective)
      rw [List.filterMap_cons_some hPath, List.map_cons, List.map_cons, List.map_cons, ih hRest,
        moduleOf?, hPath]
      rfl
  unfold reconcile newImports
  have hSome : ∀ directive ∈ directives, (importPath? directive).isSome = true :=
    fun directive hMem => isSome_importPath?_of_isDirective (h directive hMem)
  rw [foldl_addImport_eq _ hSome, hModules]
  refine congrArg (kept ++ List.eraseDups ·) (List.filter_congr fun directive _ => ?_)
  rw [Bool.decide_and, decide_not, decide_not, List.contains_eq_mem, List.contains_eq_mem]

/-! ## Import lines -/

/-- Directives that begin with `import` and a space. -/
def AreSpaced (directives : List Text) : Prop :=
  ∀ directive ∈ directives, Text.startsWith directive "import ".toList = true

theorem isImportLine_of_startsWith_trim {line : Text}
    (h : Text.startsWith (Text.trim line) "import ".toList = true) : isImportLine line = true := by
  obtain ⟨blanks, hLine, -⟩ := Text.exists_trimEnd (Text.trimStart line)
  unfold isImportLine
  rw [hLine]
  exact Text.startsWith_append h blanks

/-- The lines of a text that hold its directives are the ones that begin with `import` and a
space. -/
theorem isImportLine_of_areSpaced {text : Text} (h : AreSpaced (importsOf text)) :
    ∀ line ∈ text.pieces, isImport (Text.trim line) = true → isImportLine line = true := by
  intro line hMem hImport
  apply isImportLine_of_startsWith_trim
  apply h
  rw [importsOf_eq]
  exact List.mem_filter.mpr ⟨List.mem_map_of_mem hMem, hImport⟩

theorem AreSpaced.reconcile {kept directives : List Text} (hKept : AreSpaced kept)
    (h : AreSpaced directives) : AreSpaced (reconcile kept directives) := by
  intro directive hMem
  rcases mem_of_mem_reconcile hMem with hOld | hNew
  · exact hKept directive hOld
  · exact h directive hNew

section

variable {kept : List Text} {text : Text}
variable (hKept : ∀ directive ∈ kept, IsDirective directive) (hSome : kept ≠ [])

include hKept hSome

theorem mem_pieces_withImports {line : Text} (h : line ∈ Text.pieces (withImports kept text)) :
    line ∈ text.pieces ∨ line ∈ reconcile kept (importsOf text) ∨ line = [] := by
  cases hAny : text.pieces.any isImportLine with
  | true =>
    obtain ⟨before, middle, behind, hPieces, hWritten, -⟩ :=
      exists_pieces_withImports_of_any hKept hSome hAny
    rw [hWritten] at h
    rw [hPieces]
    simp only [List.mem_append] at h ⊢
    tauto
  | false =>
    cases hHead : firstHead? text with
    | none =>
      unfold withImports at h
      rw [putImports_eq_self hAny hHead] at h
      exact .inl h
    | some position =>
      obtain ⟨behind, hPieces, hWritten⟩ := exists_pieces_withImports_of_none hKept hSome hAny hHead
      rw [hWritten] at h
      rw [hPieces]
      simp only [List.mem_append, List.mem_cons] at h ⊢
      tauto

variable (hText : AreSpaced (importsOf text)) (hSpaced : AreSpaced kept)

include hText hSpaced

/-- Behind a merge, too, directives begin with `import` and a space. -/
theorem areSpaced_withImports : AreSpaced (importsOf (withImports kept text)) := by
  intro directive hMem
  rw [importsOf_eq] at hMem
  obtain ⟨hLine, hImport⟩ := List.mem_filter.mp hMem
  obtain ⟨line, hPiece, rfl⟩ := List.mem_map.mp hLine
  rcases mem_pieces_withImports hKept hSome hPiece with hOwn | hWritten | rfl
  · apply hText
    rw [importsOf_eq]
    exact List.mem_filter.mpr ⟨List.mem_map_of_mem hOwn, hImport⟩
  · rw [(isDirective_of_mem_reconcile hKept hWritten).trim_eq]
    exact hSpaced.reconcile hText line hWritten
  · cases hImport

/-- The imports that are read behind a merge are the ones that it wrote, where it has a place to
write them to. -/
theorem importsOf_merged (hPlace : text.pieces.any isImportLine = true ∨ (firstHead? text).isSome) :
    importsOf (withImports kept text) = reconcile kept (importsOf text) := by
  rcases importsOf_withImports hKept hSome
    (isImportLine_of_areSpaced (areSpaced_withImports hKept hSome hText hSpaced)) with
    hImports | ⟨hNone, hHead⟩
  · exact hImports
  · rw [hNone, hHead] at hPlace
    rcases hPlace with hPlace | hPlace <;> cases hPlace

end

/-- A text with directives has a place to write imports to. -/
theorem any_isImportLine_of_areSpaced {text : Text} (h : AreSpaced (importsOf text))
    (hSome : importsOf text ≠ []) : text.pieces.any isImportLine = true := by
  obtain ⟨directive, hMem⟩ := List.exists_mem_of_ne_nil _ hSome
  rw [importsOf_eq] at hMem
  obtain ⟨hLine, hImport⟩ := List.mem_filter.mp hMem
  obtain ⟨line, hPiece, rfl⟩ := List.mem_map.mp hLine
  exact List.any_eq_true.mpr ⟨line, hPiece, isImportLine_of_areSpaced h line hPiece hImport⟩

/-- The imports of a merged text are those of the old file in their order, and behind them the new
ones of the text, each once and in their order; and they stay so when the text is merged again, with
the same imports or with its own. -/
theorem imports_reconciled {text existing : Text} {kept : List Text}
    (hHead : (firstHead? text).isSome = true) (hText : AreSpaced (importsOf text))
    (hKept : ∀ directive ∈ kept, directive ∈ importsOf existing) (hSpaced : AreSpaced kept)
    (hSome : kept ≠ []) :
    let merged := withImports kept text
    importsOf merged = kept ++ newImports kept (importsOf text) ∧
      importsOf (withImports kept merged) = importsOf merged ∧
      importsOf (withImports (importsOf merged) merged) = importsOf merged := by
  intro merged
  have hDirectives : ∀ directive ∈ kept, IsDirective directive :=
    fun directive hMem => isDirective_of_mem_importsOf (hKept directive hMem)
  have hMerged : importsOf merged = reconcile kept (importsOf text) :=
    importsOf_merged hDirectives hSome hText hSpaced (.inr hHead)
  have hMergedSpaced : AreSpaced (importsOf merged) :=
    areSpaced_withImports hDirectives hSome hText hSpaced
  have hMergedSome : importsOf merged ≠ [] := by
    rw [hMerged]
    exact reconcile_ne_nil hSome _
  have hPlace := any_isImportLine_of_areSpaced hMergedSpaced hMergedSome
  refine ⟨?_, ?_, ?_⟩
  · rw [hMerged]
    exact reconcile_eq hDirectives fun directive hMem => isDirective_of_mem_importsOf hMem
  · rw [importsOf_merged hDirectives hSome hMergedSpaced hSpaced (.inl hPlace), hMerged]
    have hAgain := reconcile_around kept [] (importsOf text) []
    rwa [List.nil_append, List.nil_append, List.append_nil, List.append_nil] at hAgain
  · rw [importsOf_merged (fun directive hMem => isDirective_of_mem_importsOf hMem) hMergedSome
      hMergedSpaced hMergedSpaced (.inl hPlace), reconcile_self]

/-- A text with an import twice and another one of a module that an old file has elsewhere. -/
def overlapping : Text :=
  ("import 'dart:core';\nimport 'package:a/b.dart';\n  import 'c.dart';\nimport 'c.dart';\n" ++
    "class A \x7b\n\x7d\n").toList

/-- The imports of the old file. -/
def oldImports : List Text := ["import 'x/b.dart';".toList, "import \"z.dart\";".toList]

instance (directives : List Text) : Decidable (AreSpaced directives) :=
  inferInstanceAs (Decidable (∀ directive ∈ directives, _))

theorem overlapping_imports_reconciled :
    ((firstHead? overlapping).isSome = true ∧ AreSpaced (importsOf overlapping) ∧
      (∀ directive ∈ oldImports, directive ∈ importsOf (Text.ofLines oldImports)) ∧
      AreSpaced oldImports ∧ oldImports ≠ []) ∧
      importsOf (withImports oldImports overlapping) =
        oldImports ++ ["import 'dart:core';".toList, "import 'c.dart';".toList] := by
  have hHead : (firstHead? overlapping).isSome = true := by decide +kernel
  have hText : AreSpaced (importsOf overlapping) := by decide +kernel
  have hKept : ∀ directive ∈ oldImports, directive ∈ importsOf (Text.ofLines oldImports) := by
    decide +kernel
  have hSpaced : AreSpaced oldImports := by decide +kernel
  have hSome : oldImports ≠ [] := by decide +kernel
  have hNew : newImports oldImports (importsOf overlapping) =
      ["import 'dart:core';".toList, "import 'c.dart';".toList] := by
    decide +kernel
  refine ⟨⟨hHead, hText, hKept, hSpaced, hSome⟩, ?_⟩
  rw [← hNew]
  exact (imports_reconciled hHead hText hKept hSpaced hSome).1

end XdrBindings.Merge
