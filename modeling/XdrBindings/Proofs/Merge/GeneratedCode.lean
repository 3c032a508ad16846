import Mathlib.Tactic.MkIffOfInductiveProp
import XdrBindings.Proofs.Code.CodeLines
import XdrBindings.Proofs.Merge.SplicedParts

/-!
# The generated code in a merged file

A merge takes methods out of generated classes, where sections declare methods of the same
names.  All other lines of generated code but the imports are lines of the merged file, in
their order, if the edits of the merge keep to their places: sections below the last line of a
class, imports in the place of import lines, the header in front of all code.

An import line is told by how it begins, in a comment too.  Where the lines from the first
through the last import line hold other code, it is lost.

## Main results

* `Stages.codeLines_spliced_sublist` — the code with the sections spliced in.
* `Stages.codeLines_imported_sublist`, `Stages.codeLines_text_sublist` — with the imports and
  the header.
* `generated_code_kept` — the generated code in the merged text.
-/

namespace XdrBindings.Merge

open Code

/-! ## Lines that imports and header replace -/

/-- The lines in front of the first import line. -/
def linesAbove (text : Text) : List Text := text.pieces.takeWhile fun line => !isImportLine line

/-- The lines from the first through the last import line. -/
def importBlock (text : Text) : List Text :=
  ((text.pieces.dropWhile fun line => !isImportLine line).reverse.dropWhile
    fun line => !isImportLine line).reverse

/-- The lines of code from the first through the last import line, without the blanks around
them. -/
def codeOfImportBlock (text : Text) : List Text :=
  codeRows (Reader.start.after (Text.ofLines (linesAbove text))) (importBlock text)

/-- Lines of code that are no import lines. -/
def otherLines (lines : List Text) : List Text := lines.filter fun line => IsOtherLine line

/-! ## What is kept -/

namespace Stages

variable {style : Style} {generated existing : Text}

/-- The generated text without the methods that sections replace. -/
def withoutReplaced (stages : Stages style generated existing) : Text :=
  stages.classes.foldr (fun decl text => withBody text decl
    (style.bodyWithoutReplaced stages.classes stages.old.classes decl.name (decl.body generated)))
    generated

/-- The edits of a merge keep to their places. -/
@[mk_iff]
structure KeepsCode (stages : Stages style generated existing) : Prop where
  /-- No two generated classes share a name. -/
  distinct : (stages.classes.map ClassDecl.name).Nodup
  /-- Braces, quotes and comments pair up in what is spliced, and around it. -/
  closed : ∀ decl ∈ stages.classes,
    style.GoInto stages.classes stages.old.classes decl.name (decl.body generated)
  /-- The closing brace of a class that is spliced into begins its own line. -/
  ownLine : ∀ decl ∈ stages.classes, ∀ old ∈ style.spliceSource? stages.classes
    stages.old.classes decl.name (decl.body generated),
      EndsOnOwnLine (withoutMethods old.sections (decl.body generated))
  /-- The lines from the first through the last import line hold no code but import lines. -/
  imports : stages.old.imports ≠ [] → otherLines (codeOfImportBlock stages.carried) = []
  /-- The header is put in front of all code and all import lines. -/
  header : stages.old.header ≠ none → ∀ position ∈ firstHead? stages.imported,
    codeLines (stages.imported.take position) = [] ∧
      ∀ line ∈ Text.rows (stages.imported.take position), IsOtherLine line

instance (stages : Stages style generated existing) : Decidable stages.KeepsCode :=
  decidable_of_iff' _ (keepsCode_iff stages)

end Stages

/-- If a merge succeeds, every line of generated code that belongs neither to an import nor to
a method that a section replaces is a line of the merged text, in the same order, blanks around
lines apart. -/
def Style.KeepsGeneratedCode (style : Style) (generated existing : Text) : Prop :=
  ∀ merged, style.merge generated (some existing) = .ok merged →
    ∀ stages : Stages style generated existing,
      (otherLines (codeLines stages.withoutReplaced)).Sublist
        (merged.text.pieces.map Text.trim)

namespace Stages

variable {style : Style} {generated existing : Text} {stages : Stages style generated existing}

/-! ## Sections -/

/-- The generated classes as parts of a text, and the same parts with the sections. -/
theorem exists_parts (stages : Stages style generated existing) (hStyle : style.IsPlain)
    (hVisible : style.IsVisible) (hDistinct : (stages.classes.map ClassDecl.name).Nodup)
    (hClosed : ∀ decl ∈ stages.classes,
      style.GoInto stages.classes stages.old.classes decl.name (decl.body generated)) :
    ∃ parts tail, generated = assembled parts tail ∧ AreParts parts ∧ sitesOf tail = [] ∧
      stages.classes.map (fun decl => (decl.name, decl.body generated)) =
        parts.map (fun part => (part.name, part.body)) ∧
      (∀ part ∈ parts, style.GoInto stages.classes stages.old.classes part.name part.body) ∧
      stages.spliced =
        assembled (style.partsWithSections stages.classes stages.old.classes parts) tail := by
  obtain ⟨parts, tail, rfl, hParts, hTail⟩ := Code.exists_parts generated
  have hPairs := classesOf_assembled hParts hTail stages.found
  have hNames : stages.classes.map ClassDecl.name = parts.map ClassPart.name := by
    have hFirst := congrArg (List.map Prod.fst) hPairs
    rwa [List.map_map, List.map_map] at hFirst
  have hEnd := (walkBehind_assembled hParts).mp (classesOf_eq_ok_iff.mp stages.found).1
  have hInto : ∀ part ∈ parts,
      style.GoInto stages.classes stages.old.classes part.name part.body := by
    intro part hPart
    have hMem := List.mem_map_of_mem (f := fun part : ClassPart => (part.name, part.body)) hPart
    rw [← hPairs] at hMem
    obtain ⟨decl, hDecl, hEq⟩ := List.mem_map.mp hMem
    obtain ⟨hName, hBody⟩ := Prod.ext_iff.mp hEq
    have hDeclInto := hClosed decl hDecl
    dsimp only at hName hBody
    rwa [hName, hBody] at hDeclInto
  have hSpliced := Style.spliceAll_assembled hStyle hVisible hParts hTail hEnd (hNames ▸ hDistinct)
    hNames hInto
  exact ⟨parts, tail, rfl, hParts, hTail, hPairs, hInto,
    Except.ok.inj (stages.splicing.symm.trans hSpliced)⟩

/-- The sections stand below the lines of code that are generated. -/
theorem KeepsCode.codeLines_spliced_sublist (h : stages.KeepsCode) (hStyle : style.IsPlain)
    (hVisible : style.IsVisible) :
    (codeLines stages.withoutReplaced).Sublist (codeLines stages.spliced) := by
  obtain ⟨parts, tail, hText, hParts, hTail, hPairs, hInto, hSpliced⟩ :=
    stages.exists_parts hStyle hVisible h.distinct h.closed
  subst hText
  have hDecl : ∀ part ∈ parts, ∃ decl ∈ stages.classes, decl.name = part.name ∧
      decl.body (assembled parts tail) = part.body := by
    intro part hPart
    have hMem := List.mem_map_of_mem (f := fun part : ClassPart => (part.name, part.body)) hPart
    rw [← hPairs] at hMem
    obtain ⟨decl, hDecl, hEq⟩ := List.mem_map.mp hMem
    exact ⟨decl, hDecl, Prod.ext_iff.mp hEq⟩
  have hOwnLine : ∀ part ∈ parts, ∀ old ∈ style.spliceSource? stages.classes
      stages.old.classes part.name part.body,
        EndsOnOwnLine (withoutMethods old.sections part.body) := by
    intro part hPart
    obtain ⟨decl, hMem, hName, hBody⟩ := hDecl part hPart
    rw [← hName, ← hBody]
    exact h.ownLine decl hMem
  rw [hSpliced]
  have hWithout : stages.withoutReplaced = assembled (parts.map fun part => part.withBody
      (style.bodyWithoutReplaced stages.classes stages.old.classes part.name part.body)) tail :=
    foldr_withBody hParts hTail stages.found
      (style.bodyWithoutReplaced stages.classes stages.old.classes)
  rw [hWithout]
  refine codeLines_assembled_sublist hParts ?_ ?_ ?_ tail
  · intro part hPart
    obtain ⟨keyword, hIs⟩ := hParts part hPart
    unfold Style.bodyWithoutReplaced
    cases hSource : style.spliceSource? stages.classes stages.old.classes part.name part.body with
    | none => exact hIs.closed
    | some old => exact (hInto part hPart old hSource).1
  · intro part hPart
    obtain ⟨keyword, hIs⟩ := hParts part hPart
    exact Style.isClosed_bodyWithSections hStyle hIs.closed (hInto part hPart)
  · intro part hPart
    unfold Style.bodyWithoutReplaced Style.bodyWithSections
    cases hSource : style.spliceSource? stages.classes stages.old.classes part.name part.body with
    | none => exact .inl rfl
    | some old =>
      refine .inr ⟨hOwnLine part hPart old hSource, _, ?_, rfl⟩
      exact Text.endsLine_flatMap fun _ _ => by
        unfold Style.writeSection Style.markerLine
        rw [← List.append_assoc]
        exact Text.endsLine_concat _

/-- Classes that are carried over come behind all generated code. -/
theorem codeLines_carried_sublist (stages : Stages style generated existing) :
    (codeLines stages.spliced).Sublist (codeLines stages.carried) := by
  have hCarrying := stages.carrying
  split at hCarrying
  · rw [Except.ok.inj hCarrying]
  · obtain ⟨found, -, hCarried⟩ := Style.carryOver_eq_ok_iff.mp hCarrying
    obtain ⟨blanks, hSpliced, hBlanks⟩ := Text.exists_trimEnd stages.spliced
    have hText : ∃ more, stages.carried = Text.trimEnd stages.spliced ++ '\n' :: more := by
      rw [hCarried]
      exact ⟨_, by simp only [List.append_assoc, List.cons_append]; rfl⟩
    obtain ⟨more, hMore⟩ := hText
    rw [hMore, codeLines_newline, hSpliced, codeLines_append_blanks _ hBlanks, ← hSpliced]
    exact List.sublist_append_left _ _

/-! ## Imports and header -/

end Stages

theorem otherLines_append (front back : List Text) :
    otherLines (front ++ back) = otherLines front ++ otherLines back := List.filter_append _ _

theorem ofLines_append (front back : List Text) :
    Text.ofLines (front ++ back) = Text.ofLines front ++ Text.ofLines back :=
  List.flatMap_append

/-- Lines without code of their own can be replaced by any others. -/
theorem otherLines_replaced {reader : Reader} {front middle : List Text}
    (h : otherLines (codeRows (reader.after (Text.ofLines front)) middle) = [])
    (added behind : List Text) :
    (otherLines (codeRows reader (front ++ (middle ++ behind)))).Sublist
      ((front ++ (added ++ behind)).map Text.trim) := by
  have hKept (reader : Reader) (rows : List Text) :
      (otherLines (codeRows reader rows)).Sublist (rows.map Text.trim) :=
    List.filter_sublist.trans (codeRows_sublist reader rows)
  rw [codeRows_append, codeRows_append, otherLines_append, otherLines_append, h,
    List.nil_append, List.map_append, List.map_append]
  exact (hKept _ _).append ((hKept _ _).trans (List.sublist_append_right _ _))

/-- The lines that import lines stand between, if there is one. -/
theorem importBlock_eq {text : Text} {before middle behind : List Text}
    (hPieces : text.pieces = before ++ (middle ++ behind))
    (hBefore : ∀ line ∈ before, isImportLine line = false)
    (hBehind : ∀ line ∈ behind, isImportLine line = false)
    (hFirst : ∃ first ∈ middle.head?, isImportLine first = true)
    (hLast : ∃ last ∈ middle.getLast?, isImportLine last = true) :
    linesAbove text = before ∧ importBlock text = middle := by
  obtain ⟨first, hHead, hFirst⟩ := hFirst
  obtain ⟨last, hGetLast, hLast⟩ := hLast
  have hOther {lines : List Text} (hLines : ∀ line ∈ lines, isImportLine line = false) :
      ∀ line ∈ lines, (!isImportLine line) = true := by
    intro line hMem
    rw [hLines line hMem]
    rfl
  obtain ⟨rest, hCons⟩ := List.head?_eq_some_iff.mp hHead
  obtain ⟨init, hConcat⟩ := List.getLast?_eq_some_iff.mp hGetLast
  have hDrop : (text.pieces.dropWhile fun line => !isImportLine line) = middle ++ behind := by
    rw [hPieces, List.dropWhile_append_of_pos (hOther hBefore), hCons, List.cons_append,
      List.dropWhile_cons_of_neg (by simp [hFirst])]
  constructor
  · rw [linesAbove, hPieces, List.takeWhile_append_of_pos (hOther hBefore), hCons,
      List.cons_append, List.takeWhile_cons_of_neg (by simp [hFirst]), List.append_nil]
  · have hReverse : ∀ line ∈ behind.reverse, (!isImportLine line) = true :=
      fun line hMem => hOther hBehind line (List.mem_reverse.mp hMem)
    have hMiddle : middle.reverse = last :: init.reverse := by
      rw [hConcat]
      simp
    rw [importBlock, hDrop, List.reverse_append, List.dropWhile_append_of_pos hReverse, hMiddle,
      List.dropWhile_cons_of_neg (by simp [hLast]), ← hMiddle, List.reverse_reverse]

theorem importBlock_eq_nil {text : Text} (h : text.pieces.any isImportLine = false) :
    importBlock text = [] := by
  have hDrop : (text.pieces.dropWhile fun line => !isImportLine line) = [] := by
    apply List.dropWhile_eq_nil_iff.mpr
    intro line hMem
    rw [Bool.eq_false_iff.mpr (List.any_eq_false.mp h line hMem)]
    rfl
  rw [importBlock, hDrop]
  rfl

namespace Stages

variable {style : Style} {generated existing : Text} {stages : Stages style generated existing}

/-- The imports are written in the place of the lines from the first through the last import
line, or with an empty line behind them in front of the first class line, or not at all. -/
theorem exists_pieces_imported (stages : Stages style generated existing) :
    stages.imported = stages.carried ∨ stages.old.imports ≠ [] ∧
      ∃ above behind more : List Text,
        stages.carried.pieces = above ++ (importBlock stages.carried ++ behind) ∧
        stages.imported.pieces =
          above ++ (reconcile stages.old.imports (importsOf stages.carried) ++ (more ++ behind)) ∧
        (more = [] ∧ stages.carried.pieces.any isImportLine = true ∧
            above = linesAbove stages.carried ∨
          more = [[]] ∧ stages.carried.pieces.any isImportLine = false ∧
            importBlock stages.carried = [] ∧ ∃ position ∈ firstHead? stages.carried,
              above = Text.rows (stages.carried.take position)) := by
  by_cases hSome : stages.old.imports = []
  · left
    unfold imported
    rw [hSome]
    rfl
  · rw [stages.imported_eq hSome]
    obtain ⟨-, hImports⟩ := OldFile.header_imports_eq stages.read
    have hKept : ∀ directive ∈ stages.old.imports, IsDirective directive := fun directive hMem =>
      isDirective_of_mem_importsOf (hImports ▸ hMem)
    cases hAny : stages.carried.pieces.any isImportLine with
    | true =>
      obtain ⟨before, middle, behind, hPieces, hImported, hBefore, hBehind, hFirst, hLast⟩ :=
        exists_pieces_withImports_of_any hKept hSome hAny
      obtain ⟨hAbove, hBlock⟩ := importBlock_eq hPieces hBefore hBehind hFirst hLast
      exact .inr ⟨hSome, before, behind, [], by rw [hBlock, hPieces], hImported,
        .inl ⟨rfl, rfl, hAbove.symm⟩⟩
    | false =>
      cases hHead : firstHead? stages.carried with
      | none =>
        left
        unfold withImports putImports
        dsimp only
        rw [hAny, hHead]
        rfl
      | some position =>
        obtain ⟨behind, hPieces, hImported⟩ :=
          exists_pieces_withImports_of_none hKept hSome hAny hHead
        have hBlock := importBlock_eq_nil hAny
        exact .inr ⟨hSome, _, behind, [[]], by rw [hBlock]; exact hPieces, hImported,
          .inr ⟨rfl, rfl, hBlock, position, rfl, rfl⟩⟩

/-- The imports are written in the place of lines without code of their own, or not at all. -/
theorem KeepsCode.exists_pieces_imported (h : stages.KeepsCode) :
    stages.imported = stages.carried ∨ ∃ before middle behind added : List Text,
      stages.carried.pieces = before ++ (middle ++ behind) ∧
      stages.imported.pieces = before ++ (added ++ behind) ∧
      (∃ first ∈ added.head?, ¬IsOtherLine first) ∧
      otherLines (codeRows (Reader.start.after (Text.ofLines before)) middle) = [] := by
  rcases stages.exists_pieces_imported with hSame | ⟨hSome, above, behind, more, hPieces, hImported,
    hWhere⟩
  · exact .inl hSame
  · refine .inr ⟨above, _, behind,
      reconcile stages.old.imports (importsOf stages.carried) ++ more, hPieces, ?_, ?_, ?_⟩
    · rw [hImported, List.append_assoc]
    · -- the list that is written begins with an import of the old file
      obtain ⟨-, hImports⟩ := OldFile.header_imports_eq stages.read
      obtain ⟨first, rest, hCons⟩ := List.exists_cons_of_ne_nil hSome
      have hMem : first ∈ stages.old.imports := hCons ▸ List.mem_cons_self
      have hDirective : IsDirective first := isDirective_of_mem_importsOf (hImports ▸ hMem)
      refine ⟨first, ?_, fun hOther => ?_⟩
      · rw [List.head?_append_of_ne_nil _ (reconcile_ne_nil hSome _), head?_reconcile hSome, hCons]
        rfl
      · have hNo := hOther.2
        rw [hDirective.trim_eq, hDirective.isImport] at hNo
        cases hNo
    · rcases hWhere with ⟨-, -, rfl⟩ | ⟨-, -, hBlock, -⟩
      · exact h.imports hSome
      · rw [hBlock]
        rfl

/-- What is lost to the imports is no other line of code. -/
theorem KeepsCode.codeLines_imported_sublist (h : stages.KeepsCode) :
    (otherLines (codeLines stages.carried)).Sublist
      (stages.imported.pieces.map Text.trim) := by
  rcases h.exists_pieces_imported with hSame | ⟨before, middle, behind, added, hPieces, hImported,
    -, hNone⟩
  · rw [hSame]
    exact List.filter_sublist.trans (codeLines_sublist _)
  · rw [codeLines, hPieces, hImported]
    exact otherLines_replaced hNone added behind

/-- Behind lines without code and without imports, what is lost to the imports is no other line of
code. -/
theorem KeepsCode.codeLines_behind_sublist (h : stages.KeepsCode) {rows last : List Text}
    (hPieces : stages.imported.pieces = rows ++ last) (hNoCode : codeRows .start rows = [])
    (hOther : ∀ row ∈ rows, IsOtherLine row) :
    (otherLines (codeLines stages.carried)).Sublist (last.map Text.trim) := by
  rcases h.exists_pieces_imported with hSame | ⟨before, middle, behind, added, hCarried,
    hImported, ⟨first, hFirst, hNotOther⟩, hBlock⟩
  · rw [← hSame, codeLines, hPieces, codeRows_append, hNoCode, List.nil_append]
    exact List.filter_sublist.trans (codeRows_sublist _ _)
  · obtain ⟨addedRest, rfl⟩ := List.head?_eq_some_iff.mp hFirst
    rw [hImported] at hPieces
    -- the lines stand in front of the imports, as they begin with an import
    have hFront : ∃ inner, before = rows ++ inner ∧
        last = inner ++ ((first :: addedRest) ++ behind) := by
      rcases List.append_eq_append_iff.mp hPieces with ⟨inner, hRowsEq, hRest⟩ |
        ⟨inner, hBefore, hRest⟩
      · cases inner with
        | nil =>
          refine ⟨[], ?_, ?_⟩
          · rw [hRowsEq, List.append_nil, List.append_nil]
          · exact hRest.symm
        | cons entry inner =>
          obtain rfl : first = entry := (List.cons.inj hRest).1
          exact absurd (hOther first (by rw [hRowsEq]; simp)) hNotOther
      · exact ⟨inner, hBefore, hRest⟩
    obtain ⟨inner, rfl, rfl⟩ := hFront
    rw [codeLines, hCarried, List.append_assoc, codeRows_append, hNoCode, List.nil_append]
    apply otherLines_replaced
    rw [ofLines_append, Reader.after_append _ (cut_of_endsLine (Text.endsLine_ofLines _) _)]
      at hBlock
    exact hBlock

/-- What is lost to the header is no other line of code either. -/
theorem KeepsCode.codeLines_text_sublist (h : stages.KeepsCode) :
    (otherLines (codeLines stages.carried)).Sublist (stages.text.pieces.map Text.trim) := by
  cases hHeader : stages.old.header with
  | none =>
    have hText : stages.text = stages.imported := by
      rw [stages.text_eq, hHeader]
    rw [hText]
    exact h.codeLines_imported_sublist
  | some header =>
    have hText : stages.text = withHeader header stages.imported := by
      rw [stages.text_eq, hHeader]
    cases hHead : firstHead? stages.imported with
    | none =>
      have hSame : withHeader header stages.imported = stages.imported := by
        unfold withHeader
        rw [hHead]
      rw [hText, hSame]
      exact h.codeLines_imported_sublist
    | some position =>
      obtain ⟨line, others, hPieces, hWritten⟩ := exists_pieces_withHeader header hHead
      obtain ⟨hNone, hOther⟩ := h.header (by rw [hHeader]; nofun) position hHead
      -- no code in front of the place of the header
      have hNoCode : codeRows .start (Text.rows (stages.imported.take position)) = [] := by
        obtain ⟨all, last, hAll, -, -⟩ := Text.exists_rows (stages.imported.take position)
        rw [codeLines, hAll, codeRows_append] at hNone
        rw [Text.rows, hAll, List.dropLast_concat]
        exact (List.append_eq_nil_iff.mp hNone).1
      have hBehind := h.codeLines_behind_sublist hPieces hNoCode hOther
      have hTrim : (line :: others).map Text.trim =
          (Text.trimStart line :: others).map Text.trim := by
        rw [List.map_cons, List.map_cons, Text.trim_trimStart]
      rw [hText, hWritten, List.map_append, List.map_cons, ← hTrim]
      exact hBehind.trans ((List.sublist_cons_self _ _).trans (List.sublist_append_right _ _))

end Stages

/-- The generated code is kept if the edits of the merge keep to their places. -/
theorem generated_code_kept {generated existing : Text}
    (h : ∀ stages : Stages .standard generated existing, stages.KeepsCode) :
    Style.standard.KeepsGeneratedCode generated existing := by
  intro merged hMerge stages
  obtain ⟨again, rfl⟩ := mergeExisting_eq_ok_iff.mp hMerge
  rw [Stages.eq again stages]
  have hCode := (h stages).codeLines_spliced_sublist Style.isPlain_standard
    Style.isVisible_standard
  exact ((hCode.trans stages.codeLines_carried_sublist).filter _).trans
    (h stages).codeLines_text_sublist

/-- A header, imports, a method that a section replaces, and a class that is carried over. -/
theorem generated_code_kept_all :
    ∃ generated existing,
      generated = ("// G\nimport 'a';\n\nclass XdrA \x7b\n  int a() => 1;\n  int b = 2;\n" ++
        "  // \x7d\n  int c = 3;\n  \x7d\n").toList ∧
      existing = ("// H\nimport 'b';\nclass A \x7b\n// CUSTOM_CODE_START\nint a() => 4;\n" ++
        "// CUSTOM_CODE_END\n\x7d\nclass B \x7b\x7d\n").toList ∧
      (∃ stages : Stages .standard generated existing,
        otherLines (codeLines stages.withoutReplaced) =
          ["class XdrA \x7b", "int b = 2;", "int c = 3;", "\x7d"].map String.toList) ∧
      Style.standard.KeepsGeneratedCode generated existing := by
  refine ⟨_, _, rfl, rfl, ?_⟩
  rw [String.toList_append, String.toList_append, String.toList_ofList, String.toList_ofList,
    String.toList_ofList, String.toList_ofList]
  refine ⟨⟨(Stages.find? .standard _ _).get (by decide +kernel), by decide +kernel⟩,
    generated_code_kept fun stages => ?_⟩
  rw [Stages.eq stages ((Stages.find? .standard _ _).get (by decide +kernel))]
  decide +kernel

/-- A comment line that begins as an import does takes the beginning of its class with it. -/
theorem class_head_dropped :
    ¬Style.standard.KeepsGeneratedCode
      "import 'a.dart';\n\nclass XdrA \x7b\n  /*\n  import notes\n  */\n  int x;\n\x7d\n".toList
      "import 'b.dart';\n\nclass XdrA \x7b\n\x7d\n".toList := by
  rw [String.toList_ofList, String.toList_ofList]
  intro hKeeps
  have hLines := hKeeps _ (mergeExisting_eq_ok_iff.mpr
    ⟨(Stages.find? .standard _ _).get (by decide +kernel), rfl⟩)
    ((Stages.find? .standard _ _).get (by decide +kernel))
  have hClass := hLines.subset (a := "class XdrA \x7b".toList) (by decide +kernel)
  revert hClass
  decide +kernel

end XdrBindings.Merge
