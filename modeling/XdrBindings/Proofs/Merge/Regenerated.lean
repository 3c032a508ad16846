import XdrBindings.Proofs.Code.ClassSources
import XdrBindings.Proofs.Merge.ClassNames
import XdrBindings.Proofs.Merge.Layout
import XdrBindings.Proofs.Merge.RenamedTwice
import XdrBindings.Proofs.Merge.SplicedAgain

/-!
# Merging with what a merge gave

The file that a merge gives is the old file of the next merge.  If nothing else changes, that
merge reads back what the first one wrote, and has nothing to change: the sections stand in the
generated classes as they are written, the classes that are carried over match no generated
class under their new names either, and imports and header are those of the first merge.  The
exception is an import with a tab behind its first word: it is read, but not recognised where
imports are written.

## Main results

* `Stages.ReadsBack` — what the next merge has to read back.
* `Stages.ReadsBack.exists_again` — the next merge goes through the same texts.
* `regenerating_changes_nothing` — merging once more gives the same file.
* `generated_import_written_twice` — a generated import that the next merge writes once more.
-/

namespace XdrBindings.Merge

open Code

/-- If a merge succeeds, merging the same generated text with what it gave gives that again. -/
def Style.RegeneratesUnchanged (style : Style) (generated : Text) (existing : Option Text) :
    Prop :=
  ∀ merged, style.merge generated existing = .ok merged →
    (style.merge generated (some merged.text)).map Merged.text = .ok merged.text

namespace Stages

variable {generated existing : Text}

/-- What a merge writes is read back by the next one. -/
structure ReadsBack (stages : Stages .standard generated existing) : Prop where
  classes : stages.KeepsClasses
  layout : stages.KeepsLayout
  /-- The marker lines of the merged text pair up within classes. -/
  marked : Style.standard.HoldsSections stages.text
  /-- What is spliced into a class is read alike behind it is indented. -/
  alike : ∀ old ∈ stages.old.classes, Style.standard.spliceTarget? stages.classes old ≠ none →
    ∀ part ∈ old.sections, Style.standard.ReadsAlike part.content
  /-- The classes that are carried over end the text, below their label. -/
  below : stages.missing ≠ [] → ∃ front, Text.EndsLine front ∧
    IsApart (front ++ (Style.standard.carriedLabel ++ ['\n'])) ∧
      stages.text = front ++ (Style.standard.carriedLabel ++ ['\n']) ++
        (stages.carriedCode ++ ['\n'])
  /-- Cut out again, they are the same code. -/
  cut : Text.join ['\n', '\n'] ((sourcesOf (stages.carriedCode ++ ['\n'])).map Prod.snd) =
    stages.carriedCode
  /-- No generated name without its beginning is the new name of another one. -/
  fresh : ∀ rename ∈ Style.standard.generatedRenames stages.classes,
    rename.1 ∉ stages.renames.map Prod.snd

variable {stages : Stages .standard generated existing}

/-! ## The classes that are read back -/

/-- The classes of the merged text are the generated ones with their sections, and behind them
those that are carried over. -/
theorem ReadsBack.exists_split (h : stages.ReadsBack) {file : OldFile}
    (hFile : OldFile.ofText .standard stages.text = .ok file) :
    ∃ first last, file.classes = first ++ last ∧
      first.map (fun old => (old.decl.name, old.decl.body stages.text)) =
        bodiesOf stages.spliced ∧
      last.map (fun old => old.decl.name) =
        stages.missing.map fun old => Style.standard.carriedName old.decl.name := by
  have hBodies := classBodies?_of_classesOf (OldFile.classesOf_eq hFile)
  rw [h.classes.classBodies?_text, h.classes.classBodies?_carried, List.map_map] at hBodies
  obtain ⟨first, last, hSplit, hFirst, hLast⟩ :=
    List.map_eq_append_iff.mp (Option.some.inj hBodies).symm
  refine ⟨first, last, hSplit, hFirst, ?_⟩
  rw [← h.classes.map_fst_carriedBodies, ← hLast, List.map_map]
  rfl

/-- A class that was carried over matches no generated class under its new name either. -/
theorem matchOf?_carriedName (stages : Stages .standard generated existing) {old : OldClass}
    (hOld : old ∈ stages.missing) :
    Style.standard.matchOf? stages.classes (Style.standard.carriedName old.decl.name) = none := by
  have hNew := (Style.matchOf?_eq_none_iff.mp (Style.mem_missing_iff.mp hOld).2).2
  have hStarts := Style.standard.startsWith_carriedName old.decl.name
  refine Style.matchOf?_eq_none_iff.mpr ⟨hNew, ?_⟩
  rcases Style.standard.carriedName_eq_or (Style.standard.carriedName old.decl.name) with
    ⟨-, hSame⟩ | ⟨hNot, -⟩
  · rwa [hSame]
  · rw [hStarts] at hNot
    cases hNot

section

variable (h : stages.ReadsBack) {first last : List OldClass}
  (hFirst : first.map (fun old => (old.decl.name, old.decl.body stages.text)) =
    bodiesOf stages.spliced)
  (hLast : last.map (fun old => old.decl.name) =
    stages.missing.map fun old => Style.standard.carriedName old.decl.name)

include h hFirst in
theorem ReadsBack.names_first :
    first.map (fun old => old.decl.name) = stages.classes.map ClassDecl.name := by
  obtain ⟨found, hFound, hNames⟩ := h.classes.exists_found
  have hFirstNames := congrArg (List.map Prod.fst) hFirst
  rw [List.map_map, map_fst_bodiesOf, namesOf_of_classNames? (classNames?_of_classesOf hFound),
    hNames] at hFirstNames
  exact hFirstNames

include hLast in
theorem matchOf?_last : ∀ old ∈ last,
    Style.standard.matchOf? stages.classes old.decl.name = none := by
  intro old hOld
  have hName : old.decl.name ∈ last.map fun old => old.decl.name := List.mem_map_of_mem hOld
  rw [hLast] at hName
  obtain ⟨source, hSource, hEq⟩ := List.mem_map.mp hName
  rw [← hEq]
  exact stages.matchOf?_carriedName hSource

include h hFirst hLast

/-- The classes that are carried over are carried over again. -/
theorem ReadsBack.missing_again : Style.standard.missing stages.classes (first ++ last) = last := by
  unfold Style.missing
  rw [List.filter_append, List.filter_eq_nil_iff.mpr, List.filter_eq_self.mpr, List.nil_append]
  · intro old hOld
    rw [matchOf?_last hLast old hOld]
    rfl
  · intro old hOld
    rw [Style.matchOf?_of_mem (h.names_first hFirst ▸ List.mem_map_of_mem hOld)]
    nofun

/-- The sections are spliced again. -/
theorem ReadsBack.splicing_again {file : OldFile}
    (hFile : OldFile.ofText .standard stages.text = .ok file)
    (hSplit : file.classes = first ++ last)
    (hWithin : ∀ old ∈ file.classes, Style.standard.EndsWithin stages.text old) :
    Style.standard.spliceAll stages.classes generated (first ++ last) = .ok stages.spliced := by
  obtain ⟨parts, tail, hText, hParts, hTail, hPairs, hInto, hSpliced⟩ := stages.exists_parts
    Style.isPlain_standard Style.isVisible_standard h.classes.distinct h.classes.closed
  have hNames : stages.classes.map ClassDecl.name = parts.map ClassPart.name := by
    have hPairNames := congrArg (List.map Prod.fst) hPairs
    rwa [List.map_map, List.map_map] at hPairNames
  have hBodies : bodiesOf stages.spliced = parts.map fun part => (part.name,
      Style.standard.bodyWithSections stages.classes stages.old.classes part.name part.body) := by
    rw [hSpliced, bodiesOf_assembled
      (Style.areParts_partsWithSections Style.isPlain_standard hParts hInto) hTail,
      Style.partsWithSections, List.map_map]
    rfl
  have hAgain : ∀ part ∈ parts,
      Style.standard.bodyWithSections stages.classes (first ++ last) part.name part.body =
          Style.standard.bodyWithSections stages.classes stages.old.classes part.name part.body ∧
        Style.standard.GoInto stages.classes (first ++ last) part.name part.body := by
    intro part hPart
    have hMem := List.mem_map_of_mem (f := fun part : ClassPart => (part.name,
      Style.standard.bodyWithSections stages.classes stages.old.classes part.name part.body)) hPart
    rw [← hBodies, ← hFirst] at hMem
    obtain ⟨again, hAgain, hEq⟩ := List.mem_map.mp hMem
    obtain ⟨hName, hBody⟩ := Prod.ext_iff.mp hEq
    dsimp only at hName hBody
    have hFileMem : again ∈ file.classes := hSplit ▸ List.mem_append_left _ hAgain
    rw [← hSplit]
    refine Style.bodyWithSections_again Style.isPlain_standard Style.tellsMarkers_standard hFile
      hFileMem (hWithin again hFileMem) hBody ?_ ?_ (hInto part hPart)
    · intro hUnmarked
      rw [hSplit, ← hName]
      exact Style.spliceSource?_of_mem (h.names_first hFirst) h.classes.distinct
        (matchOf?_last hLast) hAgain hUnmarked
    · intro old hOld source hSource
      have hOldMem := Style.mem_of_spliceSource? hOld
      have hTarget : Style.standard.spliceTarget? stages.classes old ≠ none := by
        rw [Style.of_spliceSource? hOld]
        exact Option.some_ne_none _
      exact ⟨h.alike old hOldMem hTarget source hSource,
        markerOf?_of_mem_lines stages.read hOldMem hSource⟩
  have hParts' : Style.standard.partsWithSections stages.classes (first ++ last) parts =
      Style.standard.partsWithSections stages.classes stages.old.classes parts :=
    List.map_congr_left fun part hPart => by rw [(hAgain part hPart).1]
  have hEnd := (classesOf_eq_ok_iff.mp stages.found).1
  rw [hText, walkBehind_assembled hParts] at hEnd
  have hAll := Style.spliceAll_assembled Style.isPlain_standard Style.isVisible_standard hParts
    hTail hEnd (hNames ▸ h.classes.distinct) hNames fun part hPart => (hAgain part hPart).2
  rw [← hText, hParts', ← hSpliced] at hAll
  exact hAll

omit hFirst in
/-- The code that is carried over is cut out again. -/
theorem ReadsBack.join_sources_again (hMissing : stages.missing ≠ [])
    (hClasses : classesOf stages.text = .ok ((first ++ last).map OldClass.decl)) :
    Text.join ['\n', '\n'] (last.map fun old => old.decl.source stages.text) =
      stages.carriedCode := by
  obtain ⟨front, hFront, hApart, hText⟩ := h.below hMissing
  have hDetached : IsDetached (front ++ (Style.standard.carriedLabel ++ ['\n'])) :=
    isDetached_append_line hFront (by decide) (by decide)
  rw [hText] at hClasses
  obtain ⟨above, below, hSplit, -, hSources⟩ := hApart.exists_classes_append hDetached hClasses
  rw [← hText] at hSources
  -- there are as many classes below the label as are carried over
  have hNewline : ∀ c ∈ ['\n'], Text.isBlank c = true := by decide
  have hNames := congrArg (List.map Prod.fst) hSources
  rw [map_fst_sourcesOf, namesOf, outline_append_blanks _ hNewline, ← namesOf,
    namesOf_of_classNames? h.classes.classNames?_carriedCode, ← hLast] at hNames
  have hLength : last.length = below.length := by
    have hLengths := congrArg List.length hNames
    simpa using hLengths.symm
  rw [List.map_append] at hSplit
  obtain ⟨-, rfl⟩ := List.append_inj' hSplit (by rw [List.length_map, hLength])
  have hCut := congrArg (List.map Prod.snd) hSources
  rw [List.map_map, List.map_map] at hCut
  rw [← h.cut, ← hCut]
  rfl

omit hFirst in
/-- What is carried over is carried over again. -/
theorem ReadsBack.carrying_again
    (hClasses : classesOf stages.text = .ok ((first ++ last).map OldClass.decl)) :
    (if last.isEmpty then .ok stages.spliced
      else Style.standard.carryOver stages.spliced stages.text last) = .ok stages.carried := by
  have hLength : last.length = stages.missing.length := by
    have hLengths := congrArg List.length hLast
    simpa using hLengths
  by_cases hMissing : stages.missing = []
  · have hNil : last = [] := List.length_eq_zero_iff.mp (by rw [hLength, hMissing]; rfl)
    rw [hNil, stages.carried_eq_spliced hMissing]
    rfl
  · have hSome : last ≠ [] := by
      rintro rfl
      exact hMissing (List.length_eq_zero_iff.mp hLength.symm)
    obtain ⟨found, hFound, hNames⟩ := h.classes.exists_found
    rw [if_neg (mt List.isEmpty_iff.mp hSome)]
    refine Style.carryOver_eq_ok_iff.mpr ⟨found, hFound, ?_⟩
    -- the new names of carried classes are kept
    have hNone : Style.standard.carriedRenames last = [] := by
      refine List.filterMap_eq_nil_iff.mpr fun old hOld => ?_
      have hName := List.mem_map_of_mem (f := fun old : OldClass => old.decl.name) hOld
      rw [hLast] at hName
      obtain ⟨source, -, hEq⟩ := List.mem_map.mp hName
      have hStarts := Style.standard.startsWith_carriedName source.decl.name
      rw [← hEq, Style.generatedName?_eq_none_iff.mpr hStarts]
      rfl
    have hRenames : Style.standard.renames last found =
        Style.standard.generatedRenames stages.classes := by
      rw [Style.renames, hNone, List.nil_append, generatedRenames_congr hNames]
    have hAgain : renameAll (Style.standard.generatedRenames stages.classes) stages.carriedCode =
        stages.carriedCode :=
      renameAll_renameAll h.classes.arePlain
        (fun rename hRename => ⟨List.mem_append_right _ hRename, h.fresh rename hRename⟩) _
    rw [hRenames, h.join_sources_again hLast hMissing hClasses, hAgain,
      h.classes.carried_eq hMissing]
    simp only [List.append_assoc]

end

/-- The next merge goes through the same texts. -/
theorem ReadsBack.exists_again (h : stages.ReadsBack) :
    ∃ again : Stages .standard generated stages.text, again.text = stages.text := by
  obtain ⟨file, hFile, hWithin⟩ := h.marked.exists_ofText
  obtain ⟨first, last, hSplit, hFirst, hLast⟩ := h.exists_split hFile
  have hMissing := h.missing_again hFirst hLast
  have hClasses := OldFile.classesOf_eq hFile
  have hSplicing := h.splicing_again hFirst hLast hFile hSplit hWithin
  rw [hSplit] at hClasses
  have hCarrying := h.carrying_again hLast hClasses
  rw [← hSplit] at hMissing hSplicing
  rw [← hMissing] at hCarrying
  exact ⟨⟨file, stages.classes, stages.spliced, stages.carried, hFile, stages.found, hSplicing,
    hCarrying⟩, h.layout.text_eq_of_carried_eq _ rfl⟩

end Stages

/-- Without an old file the generated text is what a merge with an empty one goes through. -/
theorem Stages.exists_of_empty {style : Style} {generated : Text} {classes : List ClassDecl}
    (hFound : classesOf generated = .ok classes) :
    ∃ stages : Stages style generated [], stages.text = generated :=
  ⟨⟨⟨none, [], []⟩, classes, generated, generated, rfl, hFound, rfl, rfl⟩, rfl⟩

/-- Where everything is read back, merging once more gives the same file. -/
theorem regenerating_changes_nothing {generated : Text} {existing : Option Text}
    (hFound : (classesOf generated).isOk = true)
    (h : ∀ stages : Stages .standard generated (existing.getD []), stages.ReadsBack) :
    Style.standard.RegeneratesUnchanged generated existing := by
  intro merged hMerge
  obtain ⟨stages, hText⟩ : ∃ stages : Stages .standard generated (existing.getD []),
      stages.text = merged.text := by
    cases existing with
    | none =>
      obtain ⟨classes, hClasses⟩ : ∃ classes, classesOf generated = .ok classes := by
        cases hResult : classesOf generated with
        | error fault =>
          rw [hResult] at hFound
          cases hFound
        | ok classes => exact ⟨classes, rfl⟩
      obtain rfl := Except.ok.inj ((Style.merge_none _ _).symm.trans hMerge)
      exact Stages.exists_of_empty hClasses
    | some existing =>
      obtain ⟨stages, rfl⟩ := mergeExisting_eq_ok_iff.mp hMerge
      exact ⟨stages, rfl⟩
  obtain ⟨again, hAgain⟩ := (h stages).exists_again
  have hSecond : Style.standard.merge generated (some stages.text) = .ok again.merged :=
    mergeExisting_eq_ok_iff.mpr ⟨again, rfl⟩
  rw [← hText, hSecond]
  exact congrArg Except.ok hAgain

/-- A header, imports, a section, and a documented class under another name that uses a generated
one. -/
theorem regenerating_changes_nothing_all :
    ∃ generated existing,
      generated = "// G\nimport 'a';\n\nclass XdrA \x7b\n\x7d\n".toList ∧
      existing = ("// H\nimport 'b';\nclass A \x7b\n// CUSTOM_CODE_START\nint b;\n" ++
        "// CUSTOM_CODE_END\n\x7d\n/// B\nclass B \x7b\n  A a;\n\x7d\n").toList ∧
      (classesOf generated).isOk = true ∧
      Style.standard.RegeneratesUnchanged generated (some existing) := by
  refine ⟨_, _, rfl, rfl, ?_⟩
  rw [String.toList_append, String.toList_ofList, String.toList_ofList, String.toList_ofList]
  refine ⟨by decide +kernel, regenerating_changes_nothing (by decide +kernel) fun stages => ?_⟩
  rw [Stages.eq stages ((Stages.find? .standard _ _).get (by decide +kernel))]
  refine ⟨by decide +kernel, by decide +kernel, by decide +kernel, by decide +kernel, fun _ => ?_,
    by decide +kernel, by decide +kernel⟩
  refine ⟨("// H\n\nimport 'b';\nimport 'a';\n\nclass XdrA \x7b\n\n  // CUSTOM_CODE_START\n" ++
    "  int b;\n  // CUSTOM_CODE_END\n\x7d\n\n").toList, ?_, by decide +kernel, by decide +kernel⟩
  unfold Text.EndsLine
  decide +kernel

/-- A generated import with a tab behind its first word is written once more. -/
theorem generated_import_written_twice :
    ¬Style.standard.RegeneratesUnchanged
      "import\t'a.dart';\n\nclass XdrA \x7b\n\x7d\n".toList none := by
  rw [String.toList_ofList]
  intro hAgain
  have hSecond := hAgain _ (Style.merge_none _ _)
  revert hSecond
  decide +kernel

end XdrBindings.Merge
