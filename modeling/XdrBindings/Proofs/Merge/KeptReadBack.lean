import Mathlib.Tactic.MkIffOfInductiveProp
import XdrBindings.Proofs.Code.DeclaredTexts
import XdrBindings.Proofs.Merge.KeptRecognised
import XdrBindings.Proofs.Merge.Regenerated
import XdrBindings.Proofs.Merge.SplicedSections

/-!
# What a merge writes is read back

What the next merge has to read back follows from what goes into the first one.  The declarations
that are carried over are cut out again, if each of them is read alone as the one declaration that
it is in the old file.  Markers stand within the classes of the merged text, if nothing that is
written around the sections holds one.  The classes that are carried over end the text, if imports
and header are put above them.

## Main results

* `Stages.ReadsAlone`, `Stages.CarriesLast` — what is asked of the texts that are put together.
* `Stages.KeepsClasses.join_sourcesOf_carriedCode` — carried classes are cut out as they were
  written.
* `Stages.KeepsClasses.holdsSections_text` — the markers of a merged text stand in its classes.
* `Stages.KeepsClasses.exists_text_front` — carried classes stand at the end of a merged text.
* `Stages.KeepsClasses.readsBack` — what a merge writes is read back.
-/

namespace XdrBindings.Merge

open Code

/-- Declarations are declarations under other names. -/
theorem exists_declared_renameAll {renames : List (Text × Text)}
    (hPlain : ∀ rename ∈ renames, IsPlainName rename.1 ∧ IsPlainName rename.2)
    {decls : List (Text × Text)} (h : ∀ decl ∈ decls, IsDeclared decl.1 decl.2)
    (hWhole : Reader.start.areWhole (Text.join ['\n', '\n'] (decls.map Prod.snd)) = true) :
    ∃ others : List (Text × Text), (∀ decl ∈ others, IsDeclared decl.1 decl.2) ∧
      renameAll renames (Text.join ['\n', '\n'] (decls.map Prod.snd)) =
        Text.join ['\n', '\n'] (others.map Prod.snd) := by
  induction renames generalizing decls with
  | nil => exact ⟨decls, h, rfl⟩
  | cons rename rest ih =>
    obtain ⟨⟨hOld, hNew⟩, hRest⟩ := List.forall_mem_cons.mp hPlain
    obtain ⟨-, hStays⟩ := outline_renameWord hOld hNew hWhole
    have hJoin := renameWord_join hOld hNew h
    have hTexts : (decls.map Prod.snd).map (renameWord rename.1 rename.2) =
        (decls.map (Prod.map (renamedName rename.1 rename.2)
          (renameWord rename.1 rename.2))).map Prod.snd := by
      rw [List.map_map, List.map_map]
      rfl
    rw [hTexts] at hJoin
    rw [hJoin] at hStays
    obtain ⟨others, hOthers, hAll⟩ := ih hRest (by
      intro other hOther
      obtain ⟨decl, hDecl, rfl⟩ := List.mem_map.mp hOther
      exact (h decl hDecl).renamed hOld hNew (areWhole_join h hWhole decl hDecl)) hStays
    exact ⟨others, hOthers, (congrArg (renameAll rest) hJoin).trans hAll⟩

namespace Stages

variable {generated existing : Text}

/-- Markers stand in sections only, and the classes that are carried over are read by themselves
as they are in the old file. -/
@[mk_iff]
structure ReadsAlone (stages : Stages .standard generated existing) : Prop where
  /-- Nothing that is generated holds a marker. -/
  unmarked : Style.standard.markerOf? generated = none
  /-- No import holds one. -/
  imports : ∀ directive ∈ reconcile stages.old.imports (importsOf stages.carried),
    Style.standard.markerOf? directive = none
  /-- The header holds none. -/
  header : ∀ header ∈ stages.old.header, Style.standard.markerOf? header = none
  /-- A class that is carried over is one declaration, with the lines that belong to it. -/
  declared : ∀ old ∈ stages.missing, IsDeclared old.decl.name (old.decl.source existing)
  /-- Its sections are read with it. -/
  sections : ∀ old ∈ stages.missing, Style.standard.HoldsSections (old.decl.source existing)

instance (stages : Stages .standard generated existing) : Decidable stages.ReadsAlone :=
  decidable_of_iff' _ (readsAlone_iff stages)

/-- The label and the classes that are carried over. -/
def carriedText (stages : Stages .standard generated existing) : Text :=
  (Style.standard.carriedLabel ++ ['\n']) ++ (stages.carriedCode ++ ['\n'])

/-- Imports and header are put above the classes that are carried over. -/
@[mk_iff]
structure CarriesLast (stages : Stages .standard generated existing) : Prop where
  /-- The lines that imports replace stand among the generated classes. -/
  imports : stages.old.imports ≠ [] →
    (textAboveImports stages.carried ++ Text.ofLines (importBlock stages.carried)).length ≤
      (Text.trimEnd stages.spliced ++ ['\n', '\n']).length
  /-- So does the line that the header is put in front of. -/
  header : stages.old.header ≠ none → ∀ position ∈ firstHead? stages.imported,
    position + stages.carriedText.length ≤ stages.imported.length

instance (stages : Stages .standard generated existing) : Decidable stages.CarriesLast :=
  decidable_of_iff' _ (carriesLast_iff stages)

variable {stages : Stages .standard generated existing}

/-! ## Classes that are cut out again -/

/-- Classes that are carried over are cut out again as they were written. -/
theorem KeepsClasses.join_sourcesOf_carriedCode (h : stages.KeepsClasses)
    (hDeclared : ∀ old ∈ stages.missing, IsDeclared old.decl.name (old.decl.source existing)) :
    Text.join ['\n', '\n'] ((sourcesOf (stages.carriedCode ++ ['\n'])).map Prod.snd) =
      stages.carriedCode := by
  have hSources : stages.sources = (stages.missing.map fun old =>
      (old.decl.name, old.decl.source existing)).map Prod.snd := by
    rw [List.map_map]
    rfl
  have hWhole := h.whole
  rw [hSources] at hWhole
  obtain ⟨others, hOthers, hCode⟩ := exists_declared_renameAll h.arePlain (by
    intro decl hDecl
    obtain ⟨old, hOld, rfl⟩ := List.mem_map.mp hDecl
    exact hDeclared old hOld) hWhole
  rw [carriedCode, hSources, hCode, sourcesOf_join hOthers]

/-! ## Sections that are read again -/

/-- The sections that are spliced into classes are read there. -/
theorem KeepsClasses.holdsSections_spliced (h : stages.KeepsClasses)
    (hGenerated : Style.standard.markerOf? generated = none) :
    Style.standard.HoldsSections stages.spliced := by
  obtain ⟨parts, tail, hText, hParts, hTail, -, hInto, hSpliced⟩ :=
    stages.exists_parts Style.isPlain_standard Style.isVisible_standard h.distinct h.closed
  have hEnd := (classesOf_eq_ok_iff.mp stages.found).1
  rw [hText, walkBehind_assembled hParts] at hEnd
  obtain ⟨hUnmarked, hNone⟩ := markerOf?_of_assembled (hText ▸ hGenerated)
  rw [hSpliced]
  refine holdsSections_assembled Style.isPlain_standard.isLegible Style.tellsMarkers_standard
    (by decide) (Style.areParts_partsWithSections Style.isPlain_standard hParts hInto) hTail hEnd
    ?_ ?_ hNone
  · intro other hOther
    obtain ⟨part, hPart, rfl⟩ := List.mem_map.mp hOther
    exact (hUnmarked part hPart).1
  · intro other hOther
    obtain ⟨part, hPart, rfl⟩ := List.mem_map.mp hOther
    exact holdsWritten_bodyWithSections Style.isPlain_standard.isLegible stages.read _ _
      (hUnmarked part hPart).2

/-- Neither the old nor the new names of a merge begin with the word of a marker. -/
theorem TellsClasses.keepsWords (h : stages.TellsClasses) :
    ∀ rename ∈ stages.renames, ∀ word ∈ markerWords,
      Text.startsWith rename.1 word = false ∧ Text.startsWith rename.2 word = false := by
  intro rename hRename word hWord
  have hNew : rename.2 = "Xdr".toList ++ rename.1 := Style.snd_of_mem_renames hRename
  have hHeads : ∀ word ∈ markerWords, word.head? = some 'C' := by decide
  refine ⟨h.words rename hRename word hWord, Bool.eq_false_iff.mpr fun hStarts => ?_⟩
  obtain ⟨rest, hRest⟩ := List.isPrefixOf_iff_prefix.mp hStarts
  have hHead := congrArg List.head? (hRest.trans hNew)
  rw [List.head?_append, hHeads word hWord] at hHead
  cases hHead

/-- The sections of classes that are carried over are read there. -/
theorem KeepsClasses.holdsSections_carried (h : stages.KeepsClasses) (hTells : stages.TellsClasses)
    (hGenerated : Style.standard.markerOf? generated = none)
    (hSections : ∀ old ∈ stages.missing,
      Style.standard.HoldsSections (old.decl.source existing)) :
    Style.standard.HoldsSections stages.carried := by
  have hStyle := Style.isPlain_standard.isLegible
  have hSpliced := h.holdsSections_spliced hGenerated
  by_cases hMissing : stages.missing = []
  · rwa [stages.carried_eq_spliced hMissing]
  · have hAbove : Style.standard.HoldsSections
        (Text.trimEnd stages.spliced ++ ['\n', '\n']) := by
      rw [Style.holdsSections_append_emptyLine hStyle,
        Style.holdsSections_trimEnd hStyle fun _ => Style.endsNoMarker_standard]
      exact hSpliced
    have hLabel : Style.standard.HoldsSections (Style.standard.carriedLabel ++ ['\n']) :=
      Style.holdsSections_of_markerOf?_eq_none hStyle (by decide) rfl
    have hApart : IsApart (Style.standard.carriedLabel ++ ['\n']) := by decide +kernel
    have hJoined : Style.standard.HoldsSections (Text.join ['\n', '\n'] stages.sources) := by
      refine Style.holdsSections_join hStyle fun text hText => ?_
      obtain ⟨old, hOld, rfl⟩ := List.mem_map.mp hText
      exact ⟨(h.sources old hOld).1, hSections old hOld⟩
    have hCode : Style.standard.HoldsSections (stages.carriedCode ++ ['\n']) :=
      (Style.holdsSections_append_newline hStyle _).mpr
        ((holdsSections_renameAll h.arePlain hTells.keepsWords h.whole).mpr hJoined)
    rw [h.carried_eq hMissing, Style.holdsSections_append_iff hStyle (h.behind hMissing),
      Style.holdsSections_append_iff hStyle hApart]
    exact ⟨hAbove, hLabel, hCode⟩

/-- The sections are read where they are with other imports. -/
theorem KeepsClasses.holdsSections_imported (h : stages.KeepsClasses)
    (hImports : ∀ directive ∈ reconcile stages.old.imports (importsOf stages.carried),
      Style.standard.markerOf? directive = none)
    (hCarried : Style.standard.HoldsSections stages.carried) :
    Style.standard.HoldsSections stages.imported := by
  have hStyle := Style.isPlain_standard.isLegible
  rcases h.exists_pieces_imported with hSame | ⟨hSome, above, written, behind, hPieces, hImported,
    hFront, hWritten⟩
  · rwa [hSame]
  · obtain ⟨hAbove, hBlock, -⟩ := h.imports hSome
    rw [← hFront] at hAbove
    rw [← Style.holdsSections_append_newline hStyle, ← Text.ofLines_pieces] at hCarried ⊢
    rw [hPieces, ofLines_append, ofLines_append, Style.holdsSections_append_iff hStyle hAbove,
      Style.holdsSections_append_iff hStyle hBlock.toIsApart] at hCarried
    obtain ⟨hAboveHolds, -, hBehind⟩ := hCarried
    rw [hImported, ofLines_append, ofLines_append, Style.holdsSections_append_iff hStyle hAbove]
    refine ⟨hAboveHolds,
      (Style.holdsSections_ofLines_append hStyle fun line hLine => ?_).mpr hBehind⟩
    obtain ⟨hAside, hMem | rfl⟩ := hWritten line hLine
    · exact ⟨hAside, hImports line hMem⟩
    · exact ⟨hAside, Style.markerOf?_nil hStyle⟩

/-- The sections are read where they are below another header. -/
theorem KeepsClasses.holdsSections_text (h : stages.KeepsClasses)
    (hHeader : ∀ header ∈ stages.old.header, Style.standard.markerOf? header = none)
    (hImported : Style.standard.HoldsSections stages.imported) :
    Style.standard.HoldsSections stages.text := by
  have hStyle := Style.isPlain_standard.isLegible
  rw [stages.text_eq]
  cases hSome : stages.old.header with
  | none => exact hImported
  | some header =>
    dsimp only
    unfold withHeader
    cases hHead : firstHead? stages.imported with
    | none => exact hImported
    | some position =>
      obtain ⟨hWritten, hFront⟩ := h.header header hSome position hHead
      have hNone : Style.standard.markerOf? (header ++ ['\n', '\n']) = none := by
        rw [List.append_cons, Style.markerOf?_concat hStyle.endsNoMarker_newline,
          Style.markerOf?_concat hStyle.endsNoMarker_newline]
        exact hHeader header hSome
      rw [← List.take_append_drop position stages.imported,
        Style.holdsSections_append_iff hStyle hFront.toIsApart] at hImported
      dsimp only
      rw [Style.holdsSections_append_iff hStyle hWritten.toIsApart,
        Style.holdsSections_trimStart hStyle]
      exact ⟨Style.holdsSections_of_markerOf?_eq_none hStyle hNone hWritten.isOutside_walkBehind,
        hImported.2⟩

/-! ## What stays at the end -/

/-- With other imports, the classes that are carried over stay at the end. -/
theorem KeepsClasses.exists_imported_front (h : stages.KeepsClasses) (hLast : stages.CarriesLast)
    (hMissing : stages.missing ≠ []) :
    ∃ front, IsApart front ∧ stages.imported = front ++ stages.carriedText := by
  have hCarried : stages.carried =
      (Text.trimEnd stages.spliced ++ ['\n', '\n']) ++ stages.carriedText :=
    h.carried_eq hMissing
  have hBehind := h.behind hMissing
  rcases h.exists_pieces_imported with hSame | ⟨hSome, above, written, behind, hPieces, hImported,
    hFront, hWritten⟩
  · exact ⟨_, hBehind, hSame.trans hCarried⟩
  · obtain ⟨hAbove, hBlock, -⟩ := h.imports hSome
    have hLength := hLast.imports hSome
    rw [← hFront] at hAbove hLength
    have hText : (Text.ofLines above ++ Text.ofLines (importBlock stages.carried)) ++
        Text.ofLines behind = (Text.trimEnd stages.spliced ++ ['\n', '\n']) ++
          (stages.carriedText ++ ['\n']) := by
      rw [← ofLines_append, ← ofLines_append, List.append_assoc, ← hPieces, Text.ofLines_pieces,
        hCarried, List.append_assoc]
    -- what the imports replace ends above the label
    obtain ⟨middle, hMiddle⟩ : Text.ofLines above ++ Text.ofLines (importBlock stages.carried) <+:
        Text.trimEnd stages.spliced ++ ['\n', '\n'] :=
      List.prefix_of_prefix_length_le ⟨_, hText⟩ (List.prefix_append _ _) hLength
    rw [← hMiddle, List.append_assoc _ middle] at hText
    have hRest := List.append_cancel_left hText
    rw [← hMiddle, List.append_assoc] at hBehind
    have hApart : IsApart (Text.ofLines written) :=
      IsApart.ofLines fun line hLine => (hWritten line hLine).1.toIsApart
    refine ⟨Text.ofLines above ++ (Text.ofLines written ++ middle), hAbove.append (hApart.append
      (hBlock.toIsApart.of_append (hAbove.of_append hBehind))), ?_⟩
    have hEnds := Text.ofLines_pieces stages.imported
    rw [hImported, ofLines_append, ofLines_append, hRest] at hEnds
    have hWhole : stages.imported ++ ['\n'] =
        (Text.ofLines above ++ (Text.ofLines written ++ middle) ++ stages.carriedText) ++
          ['\n'] := by
      rw [← hEnds]
      simp
    exact List.append_cancel_right hWhole

/-- Below another header, the classes that are carried over stay at the end. -/
theorem KeepsClasses.exists_text_front (h : stages.KeepsClasses) (hLast : stages.CarriesLast)
    (hMissing : stages.missing ≠ []) :
    ∃ front, IsApart front ∧ stages.text = front ++ stages.carriedText := by
  obtain ⟨front, hApart, hImported⟩ := h.exists_imported_front hLast hMissing
  rw [stages.text_eq]
  cases hSome : stages.old.header with
  | none => exact ⟨front, hApart, hImported⟩
  | some header =>
    dsimp only
    unfold withHeader
    cases hHead : firstHead? stages.imported with
    | none => exact ⟨front, hApart, hImported⟩
    | some position =>
      obtain ⟨hWritten, hCut⟩ := h.header header hSome position hHead
      have hPlace := hLast.header (by rw [hSome]; exact Option.some_ne_none _) position hHead
      have hLe : position ≤ front.length := by
        rw [hImported, List.length_append] at hPlace
        omega
      rw [hImported, List.take_append_of_le_length hLe] at hCut
      have hBack : IsApart (front.drop position) := by
        refine hCut.toIsApart.of_append ?_
        rwa [List.take_append_drop]
      have hTrim : Text.trimStart (front.drop position ++ stages.carriedText) =
          Text.trimStart (front.drop position) ++ stages.carriedText := by
        cases hBlank : Text.isBlankText (front.drop position) with
        | false => exact Text.trimStart_append_of_isBlankText hBlank _
        | true =>
          have hBlanks := List.all_eq_true.mp hBlank
          have hNone := Text.trimStart_append hBlanks []
          rw [List.append_nil] at hNone
          rw [Text.trimStart_append hBlanks, hNone]
          rfl
      dsimp only
      rw [hImported, List.drop_append_of_le_length hLe, hTrim]
      exact ⟨_, hWritten.toIsApart.append hBack.trimStart, (List.append_assoc _ _ _).symm⟩

/-! ## What is read back -/

/-- What a merge writes is read back, where classes, imports and the header are kept and what is
put together is read alone. -/
theorem KeepsClasses.readsBack (h : stages.KeepsClasses) (hTells : stages.TellsClasses)
    (hLays : stages.LaysOut) (hAlone : stages.ReadsAlone) (hLast : stages.CarriesLast)
    (hAlike : ∀ old ∈ stages.old.classes, Style.standard.spliceTarget? stages.classes old ≠ none →
      ∀ part ∈ old.sections, Style.standard.ReadsAlike part.content)
    (hFresh : ∀ rename ∈ Style.standard.generatedRenames stages.classes,
      rename.1 ∉ stages.renames.map Prod.snd) : stages.ReadsBack where
  classes := h
  layout := h.keepsLayout hLays
  marked := h.holdsSections_text hAlone.header (h.holdsSections_imported hAlone.imports
    (h.holdsSections_carried hTells hAlone.unmarked hAlone.sections))
  alike := hAlike
  below hMissing := by
    obtain ⟨front, hApart, hText⟩ := h.exists_text_front hLast hMissing
    have hLabel : IsApart (Style.standard.carriedLabel ++ ['\n']) := by decide +kernel
    exact ⟨front, hApart.line, hApart.append hLabel, hText.trans (List.append_assoc _ _ _).symm⟩
  cut := h.join_sourcesOf_carriedCode hAlone.declared
  fresh := hFresh

end Stages

/-- A header, imports, a section, and a documented class under another name with a section that
uses a generated name. -/
example : ∃ stages : Stages .standard "// G\nimport 'a';\n\nclass XdrA \x7b\n\x7d\n".toList
    ("// H\nimport 'b';\nclass A \x7b\n// CUSTOM_CODE_START\nint b;\n// CUSTOM_CODE_END\n\x7d\n" ++
      "/// B\nclass B \x7b\n// CUSTOM_CODE_START\nA a;\n// CUSTOM_CODE_END\n\x7d\n").toList,
      stages.ReadsBack := by
  rw [String.toList_append, String.toList_ofList, String.toList_ofList, String.toList_ofList]
  refine ⟨(Stages.find? .standard _ _).get (by decide +kernel),
    Stages.KeepsClasses.readsBack (by decide +kernel) (by decide +kernel) (by decide +kernel)
      (by decide +kernel) (by decide +kernel) (by decide +kernel) (by decide +kernel)⟩

end XdrBindings.Merge
