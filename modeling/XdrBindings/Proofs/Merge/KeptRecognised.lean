import Mathlib.Tactic.MkIffOfInductiveProp
import XdrBindings.Proofs.Code.HeadLines
import XdrBindings.Proofs.Merge.Again
import XdrBindings.Proofs.Merge.ClassNames
import XdrBindings.Proofs.Merge.ImportList
import XdrBindings.Proofs.Merge.ReadSections

/-!
# What is kept is recognised

Whether a merge recognises what it wrote can be told from the two files that are merged.  It does
where classes, imports and the header are kept, where the classes of the old file can be told
apart by their names, and where the classes that are carried over come with their sections.

## Main results

* `Stages.TellsClasses` — what is asked of the classes of the old file.
* `Stages.KeepsClasses.finds` — every old class has a match in the merged text.
* `Stages.LaysOut`, `Stages.KeepsClasses.keepsLayout` — what is asked of imports and headers, and
  that they are then laid out as the next merge would.
* `Stages.KeepsLayout.isRecognised` — what follows for the second merge.
* `Style.mergesAgain_of_keeps` — merging again with the same old file changes nothing.
-/

namespace XdrBindings.Merge

open Code

namespace Stages

variable {generated existing : Text}

/-- The classes of the old file are told apart, and the classes that are carried over come with
their sections. -/
@[mk_iff]
structure TellsClasses (stages : Stages .standard generated existing) : Prop where
  /-- No two old classes share a name. -/
  distinct : (stages.old.classes.map fun old => old.decl.name).Nodup
  /-- No class is carried over beside one that already has its new name. -/
  noDouble : stages.HasNoDouble
  /-- What is carried over for a class is found there with its body. -/
  bodies : ∀ old ∈ stages.missing,
    bodiesOf (old.decl.source existing) = [(old.decl.name, old.decl.body existing)]
  /-- Sections end in the classes that they begin in. -/
  within : ∀ old ∈ stages.missing, Style.standard.EndsWithin existing old
  /-- No name that is replaced begins with the word of a marker. -/
  words : ∀ rename ∈ stages.renames, ∀ word ∈ markerWords,
    Text.startsWith rename.1 word = false

instance (stages : Stages .standard generated existing) : Decidable stages.TellsClasses :=
  decidable_of_iff' _ (tellsClasses_iff stages)

variable {stages : Stages .standard generated existing}

/-! ## The classes of the merged text -/

/-- The generated classes, with the sections that are spliced into them. -/
theorem KeepsClasses.bodiesOf_spliced (h : stages.KeepsClasses) :
    bodiesOf stages.spliced = stages.classes.map fun decl =>
      (decl.name, Style.standard.bodyWithSections stages.classes stages.old.classes decl.name
        (decl.body generated)) := by
  obtain ⟨parts, tail, -, hParts, hTail, hPairs, hInto, hSpliced⟩ := stages.exists_parts
    Style.isPlain_standard Style.isVisible_standard h.distinct h.closed
  have hBoth : (stages.classes.map fun decl => (decl.name, Style.standard.bodyWithSections
      stages.classes stages.old.classes decl.name (decl.body generated))) =
        (stages.classes.map fun decl => (decl.name, decl.body generated)).map fun pair =>
          (pair.1, Style.standard.bodyWithSections stages.classes stages.old.classes pair.1
            pair.2) := by
    rw [List.map_map]
    rfl
  rw [hSpliced, bodiesOf_assembled
    (Style.areParts_partsWithSections Style.isPlain_standard hParts hInto) hTail,
    Style.partsWithSections, List.map_map, hBoth, hPairs, List.map_map]
  rfl

/-- The classes that are carried over, with their bodies under other names. -/
theorem KeepsClasses.carriedBodies_eq (h : stages.KeepsClasses) (hTells : stages.TellsClasses) :
    stages.carriedBodies = stages.missing.map fun old =>
      (Style.standard.carriedName old.decl.name,
        renameAll stages.renames (old.decl.body existing)) := by
  rw [carriedBodies, List.flatMap_congr hTells.bodies, ← List.map_eq_flatMap, List.map_map]
  exact List.map_congr_left fun old hOld =>
    congrArg (·, _) (Style.renamedBy_renames hOld (h.once old hOld))

/-- The classes that are found in the merged text. -/
theorem KeepsClasses.exists_classesOf_text (h : stages.KeepsClasses) :
    ∃ found, classesOf stages.text = .ok found ∧
      (found.map fun decl => (decl.name, decl.body stages.text)) =
        bodiesOf stages.spliced ++ stages.carriedBodies := by
  have hBodies := h.classBodies?_text.trans h.classBodies?_carried
  obtain ⟨found, hFound, hAll⟩ := Option.map_eq_some_iff.mp hBodies
  exact ⟨found, eq_ok_of_mem_toOption hFound, hAll⟩

/-! ## Matches in the merged text -/

/-- The name of a class that is carried over is no other new name. -/
theorem not_mem_carriedNames {name : Text}
    (h : name.startsWith Style.standard.classStart = false) (olds : List OldClass) :
    name ∉ olds.map fun old => Style.standard.carriedName old.decl.name := by
  intro hMem
  obtain ⟨old, -, rfl⟩ := List.mem_map.mp hMem
  rw [Style.startsWith_carriedName] at h
  cases h

section

variable {found : List ClassDecl} (hNames : found.map ClassDecl.name =
  stages.classes.map ClassDecl.name ++
    stages.missing.map fun old => Style.standard.carriedName old.decl.name)

include hNames

/-- A class that had a match has the same one in the merged text. -/
theorem matchOf?_text_of_some {name target : Text}
    (h : Style.standard.matchOf? stages.classes name = some target) :
    Style.standard.matchOf? found name = some target := by
  rw [Style.matchOf?_eq] at h ⊢
  rw [hNames]
  split_ifs at h with hName hCarried
  · rw [if_pos (List.mem_append_left _ hName), h]
  · have hNot : name ∉ stages.missing.map fun old =>
        Style.standard.carriedName old.decl.name := by
      rcases Style.standard.carriedName_eq_or name with ⟨-, hSame⟩ | ⟨hStarts, -⟩
      · rw [hSame] at hCarried
        exact absurd hCarried hName
      · exact not_mem_carriedNames hStarts _
    rw [if_neg (List.not_mem_append hName hNot), if_pos (List.mem_append_left _ hCarried), h]

/-- A class that is carried over matches itself in the merged text. -/
theorem matchOf?_text_of_mem_missing {old : OldClass} (hOld : old ∈ stages.missing) :
    Style.standard.matchOf? found old.decl.name =
      some (Style.standard.carriedName old.decl.name) := by
  have hNone := (Style.matchOf?_eq_none_iff.mp (Style.mem_missing_iff.mp hOld).2).1
  have hMem : Style.standard.carriedName old.decl.name ∈ stages.missing.map fun old =>
    Style.standard.carriedName old.decl.name := List.mem_map_of_mem hOld
  rw [Style.matchOf?_eq, hNames]
  rcases Style.standard.carriedName_eq_or old.decl.name with ⟨-, hSame⟩ | ⟨hStarts, -⟩
  · rw [hSame] at hMem ⊢
    rw [if_pos (List.mem_append_right _ hMem)]
  · rw [if_neg (List.not_mem_append hNone (not_mem_carriedNames hStarts _)),
      if_pos (List.mem_append_right _ hMem)]

end

/-- Sections stand in the class that they were spliced into. -/
theorem contains_of_matchOf? {old : OldClass} (hOld : old ∈ stages.old.classes)
    (hSome : old.sections ≠ []) {target : Text}
    (h : Style.standard.matchOf? stages.classes old.decl.name = some target) (body : Text) :
    Text.contains (Style.standard.bodyWithSections stages.classes stages.old.classes target body)
      Style.standard.startMarker = true := by
  have hTarget : Style.standard.spliceTarget? stages.classes old = some target := by
    rw [← h]
    exact if_neg (mt List.isEmpty_iff.mp hSome)
  rw [Style.contains_bodyWithSections Style.isVisible_standard]
  cases hBody : Text.contains body Style.standard.startMarker with
  | true => rfl
  | false =>
    rw [Bool.false_or, Style.spliceSource?, hBody, if_neg (by decide), List.find?_isSome]
    exact ⟨old, hOld, beq_iff_eq.mpr hTarget⟩

theorem KeepsClasses.areNames (h : stages.KeepsClasses) : AreNames stages.renames := by
  intro rename hMem
  obtain ⟨hOld, hNew⟩ := h.arePlain rename hMem
  exact ⟨⟨hOld.ne_nil, hOld.isName⟩, hNew.ne_nil, hNew.isName⟩

/-- The start marker of a class that is carried over comes with it. -/
theorem KeepsClasses.contains_renameAll (h : stages.KeepsClasses) (hTells : stages.TellsClasses)
    {old : OldClass} (hOld : old ∈ stages.missing) (hSome : old.sections ≠ []) :
    Text.contains (renameAll stages.renames (old.decl.body existing))
      Style.standard.startMarker = true := by
  have hKeeps : KeepsMarker stages.renames Style.standard.startMarker :=
    keepsMarker_of_startsWith h.areNames (List.all_eq_true.mp rfl)
      fun rename hMem => hTells.words rename hMem _ List.mem_cons_self
  refine hKeeps _ _ (renamedAll_renameAll h.areNames _) ?_
  cases hMarked : Text.contains (old.decl.body existing) Style.standard.startMarker with
  | true => rfl
  | false =>
    exact absurd (sections_eq_nil stages.read (Style.mem_missing_iff.mp hOld).1
      (hTells.within old hOld) hMarked) hSome

/-- A class that is carried over is found by the name that it is carried over under. -/
theorem TellsClasses.find?_missing (h : stages.TellsClasses) {old : OldClass}
    (hOld : old ∈ stages.missing) :
    stages.missing.find? (fun other => Style.standard.carriedName other.decl.name ==
      Style.standard.carriedName old.decl.name) = some old := by
  have hApart := h.noDouble.nodup_carriedNames h.distinct
  cases hOther : stages.missing.find? _ with
  | none =>
    have hNo := List.find?_eq_none.mp hOther old hOld
    simp at hNo
  | some other =>
    have hName := List.find?_some hOther
    obtain rfl := List.inj_on_of_nodup_map hApart (List.mem_of_find?_eq_some hOther) hOld
      (eq_of_beq hName)
    rfl

/-- Every old class has a match in the merged text, with a start marker if it has sections. -/
theorem KeepsClasses.finds (h : stages.KeepsClasses) (hTells : stages.TellsClasses) :
    ∃ found ∈ (classesOf stages.text).toOption,
      ∀ old ∈ stages.old.classes, Style.standard.Finds stages.text found old := by
  obtain ⟨found, hFound, hBodies⟩ := h.exists_classesOf_text
  rw [h.bodiesOf_spliced, h.carriedBodies_eq hTells] at hBodies
  have hNames := congrArg (List.map Prod.fst) hBodies
  rw [List.map_append, List.map_map, List.map_map, List.map_map] at hNames
  replace hNames : found.map ClassDecl.name = stages.classes.map ClassDecl.name ++
    stages.missing.map fun old => Style.standard.carriedName old.decl.name := hNames
  refine ⟨found, by rw [hFound]; rfl, fun old hOld => ?_⟩
  cases hMatch : Style.standard.matchOf? stages.classes old.decl.name with
  | some target =>
    refine ⟨target, matchOf?_text_of_some hNames hMatch, fun hSome => ?_⟩
    obtain ⟨decl, body, hDecl, -, -⟩ : ∃ decl body,
        stages.classes.find? (fun decl => decl.name == target) = some decl ∧
          decl.body generated = body ∧ _ := Style.exists_bodyOf?_of_matchOf? rfl hMatch
    have hName : decl.name = target := by simpa using List.find?_some hDecl
    refine ⟨_, ?_, contains_of_matchOf? hOld hSome hMatch (decl.body generated)⟩
    rw [bodyOf?_eq, hBodies, List.find?_append, List.find?_map]
    have hFind : stages.classes.find? ((fun pair : Text × Text => pair.1 == target) ∘ fun decl =>
        (decl.name, Style.standard.bodyWithSections stages.classes stages.old.classes decl.name
          (decl.body generated))) = some decl := hDecl
    rw [hFind, ← hName]
    rfl
  | none =>
    have hMissing : old ∈ stages.missing := Style.mem_missing_iff.mpr ⟨hOld, hMatch⟩
    refine ⟨_, matchOf?_text_of_mem_missing hNames hMissing, fun hSome => ?_⟩
    refine ⟨_, ?_, h.contains_renameAll hTells hMissing hSome⟩
    have hNot := (Style.matchOf?_eq_none_iff.mp hMatch).2
    rw [bodyOf?_eq, hBodies, List.find?_append, List.find?_eq_none.mpr, Option.none_or,
      List.find?_map]
    · have hFind : stages.missing.find? ((fun pair : Text × Text =>
          pair.1 == Style.standard.carriedName old.decl.name) ∘ fun old =>
            (Style.standard.carriedName old.decl.name,
              renameAll stages.renames (old.decl.body existing))) = some old :=
        hTells.find?_missing hMissing
      rw [hFind]
      rfl
    · intro pair hPair hEq
      obtain ⟨decl, hDecl, rfl⟩ := List.mem_map.mp hPair
      exact hNot ((eq_of_beq hEq) ▸ List.mem_map_of_mem hDecl)

/-! ## Imports and header -/

/-- A line that begins no import is no import line. -/
theorem isOtherLine_of_not_beginsHead {line : Text} (h : ¬BeginsHead line) :
    IsOtherLine line := by
  have hNone : Text.startsWith (Text.trimStart line) importWord = false :=
    Bool.eq_false_iff.mpr fun hStarts => h ⟨importWord, List.mem_cons_self, hStarts⟩
  constructor
  · refine Bool.eq_false_iff.mpr fun hLine => ?_
    obtain ⟨rest, hRest⟩ := List.isPrefixOf_iff_prefix.mp hLine
    have hWord : "import ".toList = importWord ++ [' '] := rfl
    rw [hWord, List.append_assoc] at hRest
    have hStarts : Text.startsWith (Text.trimStart line) importWord = true :=
      List.isPrefixOf_iff_prefix.mpr ⟨_, hRest⟩
    rw [hNone] at hStarts
    cases hStarts
  · unfold isImport pathOfTrimmed?
    split
    · rename_i hStarts
      obtain ⟨blanks, hTrim, -⟩ := Text.exists_trimEnd (Text.trimStart line)
      have hLonger : Text.startsWith (Text.trimStart line) importWord = true := by
        rw [hTrim]
        exact List.isPrefixOf_iff_prefix.mpr
          ((List.isPrefixOf_iff_prefix.mp hStarts).trans (List.prefix_append _ _))
      rw [hNone] at hLonger
      cases hLonger
    · rfl

/-- The first import or class line stands right behind a header that begins none. -/
theorem KeepsClasses.firstHead?_text (h : stages.KeepsClasses) {header : Text}
    (hHeader : stages.old.header = some header)
    (hLines : ∀ line ∈ header.pieces, ¬BeginsHead line) {position : Nat}
    (hHead : firstHead? stages.imported = some position) :
    firstHead? stages.text = some (header.length + 2) := by
  obtain ⟨hWritten, -⟩ := h.header header hHeader position hHead
  have hFront : Text.ofLines (header.pieces ++ [[]]) = header ++ ['\n', '\n'] := by
    rw [ofLines_append, Text.ofLines_pieces, List.append_assoc]
    rfl
  have hNewline : ∀ line ∈ header.pieces ++ [[]], '\n' ∉ line := by
    intro line hMem
    rcases List.mem_append.mp hMem with hPiece | hEmpty
    · exact Text.newline_not_mem_of_mem_pieces hPiece
    · rw [List.mem_singleton.mp hEmpty]
      exact List.not_mem_nil
  have hNone : ∀ line ∈ header.pieces ++ [[]], ¬BeginsHead line := by
    intro line hMem
    rcases List.mem_append.mp hMem with hPiece | hEmpty
    · exact hLines line hPiece
    · rw [List.mem_singleton.mp hEmpty]
      decide
  have hApart := hWritten.toIsApart
  rw [← hFront] at hApart
  rw [text_eq_withHeader hHeader, withHeader_eq hHead, ← hFront,
    firstHead?_ofLines_append hNewline hNone hApart, firstHead?_trimStart hHead, hFront]
  simp

/-- Imports begin with `import` and a space, the header of the old file begins no import or class,
and what the old file does not have stands in the generated text as a merge writes it. -/
@[mk_iff]
structure LaysOut (stages : Stages .standard generated existing) : Prop where
  kept : AreSpaced stages.old.imports
  /-- If imports are written, they take the place of such imports. -/
  spaced : stages.old.imports ≠ [] → AreSpaced (importsOf stages.carried)
  /-- If none are written, those of the generated text stand right below one another. -/
  ownImports : stages.old.imports = [] → importsOf stages.carried ≠ [] →
    importBlock stages.carried = importsOf stages.carried
  header : ∀ header ∈ stages.old.header, ∀ line ∈ header.pieces, ¬BeginsHead line
  /-- What the header replaces holds no import. -/
  above : stages.old.header ≠ none → ∀ position ∈ firstHead? stages.imported,
    ∀ line ∈ Text.pieces (stages.imported.take position), IsOtherLine line
  /-- If no header is written, that of the generated text begins it, with an empty line behind
  it. -/
  ownHeader : stages.old.header = none → ∀ header ∈ headerOf stages.imported,
    ∀ position ∈ firstHead? stages.imported,
      stages.imported.take position = header ++ ['\n', '\n'] ∧
        ∀ c ∈ (stages.imported.drop position).head?, Text.isBlank c = false

instance (stages : Stages .standard generated existing) : Decidable stages.LaysOut :=
  decidable_of_iff' _ (laysOut_iff stages)

/-- Imports and header are laid out as the next merge would. -/
theorem KeepsClasses.keepsLayout (h : stages.KeepsClasses) (hLays : stages.LaysOut) :
    stages.KeepsLayout where
  imports hSome := by
    rw [stages.imported_eq hSome]
    exact isImportLine_of_areSpaced (areSpaced_withImports stages.isDirective_of_mem_imports hSome
      (hLays.spaced hSome) hLays.kept)
  ownImports := hLays.ownImports
  header header hHeader position hHead := by
    have hLines := hLays.header header hHeader
    have hWritten : stages.old.header ≠ none := by
      rw [Option.mem_def.mp hHeader]
      exact Option.some_ne_none _
    exact ⟨h.firstHead?_text hHeader hLines hHead,
      fun line hMem => isOtherLine_of_not_beginsHead (hLines line hMem),
      hLays.above hWritten position hHead⟩
  ownHeader := hLays.ownHeader

/-! ## What is recognised -/

/-- Imports that are written are read as imports. -/
theorem KeepsLayout.isImportLine_of_mem {style : Style}
    {stages : Stages style generated existing} (h : stages.KeepsLayout)
    (hWritten : stages.imported ≠ stages.carried) :
    ∀ directive ∈ reconcile stages.old.imports (importsOf stages.carried),
      isImportLine directive = true := by
  obtain ⟨hSome, above, behind, more, -, hPieces, -⟩ :=
    stages.exists_pieces_imported.resolve_left hWritten
  intro directive hMem
  have hIs := isDirective_of_mem_reconcile stages.isDirective_of_mem_imports hMem
  refine h.imports hSome directive ?_ (by rw [hIs.trim_eq]; exact hIs.isImport)
  rw [hPieces]
  exact List.mem_append_right _ (List.mem_append_left _ hMem)

/-- A merge that keeps classes, imports and the header recognises what it wrote. -/
theorem KeepsLayout.isRecognised (h : stages.KeepsLayout) (hClasses : stages.KeepsClasses)
    (hTells : stages.TellsClasses) : stages.IsRecognised where
  classes := hClasses.finds hTells
  firstImport hWritten directive hHead := by
    obtain ⟨more, hMore⟩ := prefix_reconcile stages.old.imports (importsOf stages.carried)
    refine h.isImportLine_of_mem hWritten directive ?_
    rw [← hMore]
    exact List.mem_append_left _ (List.mem_of_mem_head? hHead)
  lastImport hWritten directive hLast :=
    h.isImportLine_of_mem hWritten directive (List.mem_of_getLast? hLast)
  header header hHeader hSome position hPosition := by
    obtain ⟨first, hFirst⟩ := Option.ne_none_iff_exists'.mp hSome
    obtain ⟨hPlace, -, -⟩ := h.header header hHeader first hFirst
    exact Option.some.inj (hPosition.symm.trans hPlace)
  headerLines _ header hHeader position hPosition := by
    obtain ⟨-, hLines, hFront⟩ := h.header header hHeader position hPosition
    exact ⟨fun line hMem => (hLines line hMem).1, hFront⟩

end Stages

/-- Merging again with the same old file changes nothing where classes, imports and the header are
kept. -/
theorem Style.mergesAgain_of_keeps {generated existing : Text}
    (h : ∀ stages : Stages .standard generated existing,
      stages.KeepsClasses ∧ stages.TellsClasses ∧ stages.LaysOut) :
    Style.standard.MergesAgain generated existing := by
  rw [Style.mergesAgain_iff_exists_again]
  intro stages
  obtain ⟨hClasses, hTells, hLays⟩ := h stages
  exact ((hClasses.keepsLayout hLays).isRecognised hClasses hTells).exists_again

/-- A header, an import, a section and a class that is carried over with one. -/
example : Style.standard.MergesAgain "class XdrA \x7b\n\x7d\n".toList
    ("// H\n\nimport 'b';\nclass A \x7b\n// CUSTOM_CODE_START\nint b = 2;\n" ++
      "// CUSTOM_CODE_END\n\x7d\nclass B \x7b\n// CUSTOM_CODE_START\nA a;\n" ++
      "// CUSTOM_CODE_END\n\x7d\n").toList := by
  rw [String.toList_append, String.toList_append, String.toList_ofList, String.toList_ofList,
    String.toList_ofList, String.toList_ofList]
  refine Style.mergesAgain_of_keeps fun stages => ?_
  rw [Stages.eq stages ((Stages.find? .standard _ _).get (by decide +kernel))]
  decide +kernel

end XdrBindings.Merge
