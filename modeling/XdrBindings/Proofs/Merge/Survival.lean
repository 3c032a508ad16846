import XdrBindings.Proofs.Merge.Blocks
import XdrBindings.Proofs.Merge.Carried
import XdrBindings.Proofs.Merge.SpliceAll

/-!
# Sections survive a merge

Every section of the old file is kept by the merged text, as it was or, in a class that is
carried over, with names replaced, as long as no step of the merge disturbs it.  The steps
disturb sections in four ways.

* Two old classes match one generated class, and the sections of the second one are left out
  because those of the first stand there already.
* A section, or a body that methods are taken out of, has braces or quotes that do not pair up
  by themselves, so that the classes behind it are found elsewhere.
* The end marker line of a section stands partly or wholly behind the class that is carried
  over, or the word of a marker is renamed.
* A marker line stands in front of or between the import lines that are replaced, or in front
  of the class line that the header is put before.

## Main results

* `Stages.Undisturbed` — none of these.
* `Stages.Undisturbed.exists_carried`, `Stages.Undisturbed.exists_text` — sections through the
  steps.
* `sections_survive` — every section of the old file is kept.
-/

namespace XdrBindings.Merge

open Code

namespace Stages

variable {style : Style} {generated existing : Text}

/-- The renames in the classes that are carried over. -/
def renames (stages : Stages style generated existing) : List (Text × Text) :=
  style.renames stages.missing stages.classes

/-- How the lines of a section come back: as they are, or renamed where the class is carried
over. -/
def sameLine (stages : Stages style generated existing) (old : OldClass) : Text → Text → Prop :=
  if (style.matchOf? stages.classes old.decl.name).isSome then Eq else RenamedAll stages.renames

/-- The words of the markers. -/
def markerWords : List Text := ["CUSTOM_CODE_START".toList, "CUSTOM_CODE_END".toList]

/-- No step of the merge disturbs a section. -/
structure Undisturbed (stages : Stages .standard generated existing) : Prop where
  /-- No two old classes with sections match the same generated class. -/
  distinct : (stages.old.classes.filterMap
    (Style.standard.spliceTarget? stages.classes)).Nodup
  /-- Braces, quotes and comments pair up in what is spliced, and around it. -/
  closed : ∀ old ∈ stages.old.classes,
    ∀ target ∈ Style.standard.spliceTarget? stages.classes old,
    ∀ body ∈ bodyOf? generated stages.classes target,
      IsClosed (withoutMethods old.sections body) ∧
        ∀ part ∈ old.sections, IsClosed (Text.ofLines part.content.lines)
  /-- Sections end in the classes that they begin in. -/
  within : ∀ old ∈ stages.missing, Style.standard.EndsWithin existing old
  /-- No name that is replaced begins with the word of a marker. -/
  words : ∀ rename ∈ stages.renames, ∀ word ∈ markerWords,
    Text.startsWith rename.1 word = false
  /-- No import line stands behind a marker line. -/
  imports : stages.old.imports ≠ [] →
    ∀ line ∈ stages.carried.pieces.dropWhile fun line =>
      (Style.standard.markerOf? line).isNone, isImportLine line = false
  /-- Where there is no import line, the first class line stands in front of all markers. -/
  importsHead : stages.old.imports ≠ [] → stages.carried.pieces.any isImportLine = false →
    ∀ position ∈ firstHead? stages.carried,
      ∀ marker ∈ Style.standard.markers stages.carried, position ≤ marker.start
  /-- So does the import or class line that the header is put before. -/
  header : stages.old.header ≠ none → ∀ position ∈ firstHead? stages.imported,
    ∀ marker ∈ Style.standard.markers stages.imported, position < marker.start

end Stages

/-! ## Marker lines -/

/-- A line with the start marker is a marker line. -/
theorem Block.Shows.markerOf?_opening {block : Block} {style : Style}
    {same : Text → Text → Prop} {content : Text} (h : block.Shows style same content)
    (ending : Text) : style.markerOf? (block.opening ++ ending) = some .start := by
  obtain ⟨front, back, hOpening⟩ := Text.contains_iff.mp h.startMark
  have hContains : Text.contains (block.opening ++ ending) style.startMarker = true :=
    Text.contains_iff.mpr ⟨front, back ++ ending, by simp [hOpening]⟩
  unfold Style.markerOf?
  rw [if_pos hContains]

/-- The marker line that a block begins with. -/
theorem Block.Shows.exists_mem_markers {block : Block} {style : Style}
    {same : Text → Text → Prop} {content front : Text} (h : block.Shows style same content)
    (hFront : Text.EndsLine front) (back : Text) :
    ∃ marker ∈ style.markers (front ++ (block.text ++ back)), marker.start = front.length := by
  have hChunks : Text.chunks (front ++ (block.text ++ back)) =
      front.chunks ++ (block.opening ++ ['\n']) ::
        Text.chunks (Text.ofLines (block.inner ++ [block.closing]) ++ back) := by
    have hText : block.text ++ back = block.opening ++ ['\n'] ++
        (Text.ofLines (block.inner ++ [block.closing]) ++ back) := by
      simp [Block.text, Block.lines, Text.ofLines]
    rw [Text.chunks_append hFront, hText, Text.chunks_append (Text.endsLine_concat _),
      Text.chunks_line (h.newline _ List.mem_cons_self)]
    rfl
  obtain ⟨marker, hMem, -, hStart⟩ := Style.exists_mem_markersFrom
    (h.markerOf?_opening ['\n']) front.chunks
    (Text.chunks (Text.ofLines (block.inner ++ [block.closing]) ++ back)) 1 0
  refine ⟨marker, ?_, ?_⟩
  · unfold Style.markers
    rw [hChunks]
    exact hMem
  · rw [hStart, Text.chunks_flatten, Nat.zero_add]

/-! ## Splicing -/

/-- The part of a list from the first entry that stops dropping on. -/
theorem mem_dropWhile_append {α : Type} {p : α → Bool} {front back : List α} {entry other : α}
    (hEntry : p entry = false) (h : other ∈ entry :: back) :
    other ∈ (front ++ entry :: back).dropWhile p := by
  rw [List.dropWhile_append]
  split
  · rw [List.dropWhile_cons_of_neg (by simp [hEntry])]
    exact h
  · exact List.mem_append_right _ h

/-- A section that is spliced into a class stands in the text, in front of its brace. -/
theorem holds_of_bodyOf? {style : Style} (hStyle : style.IsPlain) {text target body : Text}
    {classes : List ClassDecl} (hClasses : classesOf text = .ok classes)
    {sections : List Section}
    (hBody : bodyOf? text classes target = some (style.splicedBody body sections))
    {part : Section} (hPart : part ∈ sections) :
    ∃ block : Block, Text.Holds text block.text ∧ block.Shows style Eq part.content := by
  obtain ⟨front, back, hText⟩ := exists_of_bodyOf? hClasses hBody
  obtain ⟨first, last, rfl⟩ := List.append_of_mem hPart
  obtain ⟨block, hWritten, hShows⟩ := Style.exists_shows_writeSection hStyle.isLegible part.content
  have hParts : text = (front ++ '{' :: (Text.trimEnd body ++ ['\n'] ++
      first.flatMap fun part => style.writeSection part.content) ++ ['\n']) ++
      (block.text ++ ((last.flatMap fun part => style.writeSection part.content) ++
        '}' :: back)) := by
    rw [hText, Style.splicedBody, List.flatMap_append, List.flatMap_cons, hWritten]
    simp
  refine ⟨block, ⟨_, _, hParts, Text.endsLine_concat _, ?_⟩, hShows⟩
  have hBrace : '}' ∈ (last.flatMap fun part => style.writeSection part.content) ++ '}' :: back :=
    List.mem_append_right _ List.mem_cons_self
  exact Text.isBlankText_eq_false hBrace rfl

namespace Stages

variable {generated existing : Text} {stages : Stages .standard generated existing}

/-- The spliced text has the generated classes, and the sections of matched classes. -/
theorem Undisturbed.holds_spliced (h : stages.Undisturbed)
    (hGenerated : generated.contains Style.standard.startMarker = false) :
    ∃ found, classesOf stages.spliced = .ok found ∧
      found.map ClassDecl.name = stages.classes.map ClassDecl.name ∧
      ∀ old ∈ stages.old.classes, Style.standard.matchOf? stages.classes old.decl.name ≠ none →
        ∀ part ∈ old.sections, ∃ block : Block, Text.Holds stages.spliced block.text ∧
          block.Shows .standard Eq part.content := by
  have hTakes : ∀ old ∈ stages.old.classes, ∀ target,
      Style.standard.spliceTarget? stages.classes old = some target →
      ∀ body, bodyOf? generated stages.classes target = some body →
        Style.standard.Takes body old := by
    intro old hOld target hTarget body hBody
    obtain ⟨front, back, hText⟩ := exists_of_bodyOf? stages.found hBody
    obtain ⟨hClosed, hContents⟩ := h.closed old hOld target hTarget body hBody
    refine ⟨?_, hClosed, hContents⟩
    have hParts : generated = (front ++ ['{']) ++ (body ++ '}' :: back) := by simp [hText]
    rw [hParts] at hGenerated
    exact Text.contains_eq_false_of_append hGenerated
  obtain ⟨spliced, found, hSplice, hFound, hNames, hInto, -⟩ :=
    Style.spliceAll_bodies Style.isPlain_standard h.distinct stages.found rfl hTakes
  obtain rfl := Except.ok.inj (stages.splicing.symm.trans hSplice)
  refine ⟨found, hFound, hNames, ?_⟩
  intro old hOld hMatch part hPart
  obtain ⟨target, hTarget⟩ := Option.ne_none_iff_exists'.mp hMatch
  have hInTarget : Style.standard.spliceTarget? stages.classes old = some target := by
    have hSome : old.sections.isEmpty = false := by
      rw [List.isEmpty_eq_false_iff]
      exact List.ne_nil_of_mem hPart
    unfold Style.spliceTarget?
    rw [hSome]
    exact hTarget
  obtain ⟨decl, body, -, -, hBody⟩ := Style.exists_bodyOf?_of_matchOf? rfl hTarget
  exact holds_of_bodyOf? Style.isPlain_standard hFound
    (hInto old hOld target hInTarget body hBody) hPart

/-! ## Classes that are carried over -/

theorem generatedRenames_congr {style : Style} {classes found : List ClassDecl}
    (h : found.map ClassDecl.name = classes.map ClassDecl.name) :
    style.generatedRenames found = style.generatedRenames classes := by
  have hNames (decls : List ClassDecl) : style.generatedRenames decls =
      (decls.map ClassDecl.name).filterMap fun name =>
        if name.startsWith style.classStart then
          let base := name.drop style.classStart.length
          if base.head?.any Char.isUpper then some (base, name) else none
        else none := by
    rw [List.filterMap_map]
    rfl
  rw [hNames, hNames, h]

theorem Undisturbed.renames_eq {found : List ClassDecl}
    (h : found.map ClassDecl.name = stages.classes.map ClassDecl.name) :
    Style.standard.renames stages.missing found = stages.renames := by
  unfold renames Style.renames
  rw [generatedRenames_congr h]

/-- Behind carrying over, every section of the old file stands in the text. -/
theorem Undisturbed.exists_carried (h : stages.Undisturbed)
    (hGenerated : generated.contains Style.standard.startMarker = false) {old : OldClass}
    (hOld : old ∈ stages.old.classes) {part : Section} (hPart : part ∈ old.sections) :
    ∃ front, ∃ block : Block, ∃ back, stages.carried = front ++ (block.text ++ back) ∧
      Text.EndsLine front ∧ block.Shows .standard (stages.sameLine old) part.content := by
  obtain ⟨found, hFound, hFoundNames, hMatched⟩ := h.holds_spliced hGenerated
  have hRenames := Undisturbed.renames_eq hFoundNames
  have hCarrying := stages.carrying
  unfold sameLine
  cases hMatch : Style.standard.matchOf? stages.classes old.decl.name with
  | some target =>
    -- spliced into the class that it matches
    obtain ⟨block, hHolds, hShows⟩ := hMatched old hOld (by simp [hMatch]) part hPart
    have hCarried : Text.Holds stages.carried block.text := by
      split at hCarrying
      · rw [← Except.ok.inj hCarrying]
        exact hHolds
      · obtain ⟨_, -, hText⟩ := Style.carryOver_eq_ok_iff.mp hCarrying
        rw [hText]
        simp only [List.append_assoc]
        exact hHolds.trimEnd_append _
    obtain ⟨front, back, hText, hFront, -⟩ := hCarried
    exact ⟨front, block, back, hText, hFront, hShows⟩
  | none =>
    -- carried over with its class
    have hMissing : old ∈ stages.missing := Style.mem_missing_iff.mpr ⟨hOld, hMatch⟩
    have hSome : (Style.standard.missing stages.classes stages.old.classes).isEmpty = false := by
      rw [List.isEmpty_eq_false_iff]
      exact List.ne_nil_of_mem hMissing
    rw [hSome, if_neg (by decide)] at hCarrying
    change Style.standard.carryOver stages.spliced existing stages.missing = _ at hCarrying
    have hNames : AreNames stages.renames := by
      rw [← hRenames]
      apply areNames_renames
      · exact List.all_eq_true.mp rfl
      · intro other hOther
        exact isName_name (OldFile.classesOf_eq stages.read)
          (List.mem_map_of_mem (Style.mem_missing_iff.mp hOther).1)
      · intro decl hDecl
        exact isName_name hFound hDecl
    have hStart : KeepsMarker stages.renames Style.standard.startMarker :=
      keepsMarker_of_startsWith hNames (List.all_eq_true.mp rfl)
        fun rename hMem => h.words rename hMem _ List.mem_cons_self
    have hEnd : KeepsMarker stages.renames Style.standard.endMarker :=
      keepsMarker_of_startsWith hNames (List.all_eq_true.mp rfl)
        fun rename hMem => h.words rename hMem _ (List.mem_cons_of_mem _ List.mem_cons_self)
    have hWithin := h.within old hMissing
    rw [← hRenames] at hNames hStart hEnd
    have hShown := Style.exists_shows_carryOver Style.isPlain_standard stages.read hFound hCarrying
      hNames hStart hEnd hOld hMissing hPart hWithin
    rw [hRenames] at hShown
    exact hShown

/-! ## Imports and header -/

/-- A section that stands behind the classes that are carried over stands in the merged
text. -/
theorem Undisturbed.exists_text (h : stages.Undisturbed) {same : Text → Text → Prop}
    {content front back : Text} {block : Block}
    (hShows : block.Shows .standard same content) (hFront : Text.EndsLine front)
    (hCarried : stages.carried = front ++ (block.text ++ back)) :
    ∃ other, stages.text = other ++ (block.text ++ back) ∧ Text.EndsLine other := by
  have hImported : ∃ other, stages.imported = other ++ (block.text ++ back) ∧
      Text.EndsLine other := by
    unfold imported
    split
    · exact ⟨front, hCarried, hFront⟩
    · rename_i hSome
      have hOld : stages.old.imports ≠ [] := by
        intro hNil
        rw [hNil] at hSome
        exact hSome rfl
      unfold withImports
      rw [hCarried]
      apply exists_putImports hFront
      · intro line hMem
        apply h.imports hOld
        have hPieces : Text.pieces (block.text ++ back) = block.opening ::
            (block.inner ++ [block.closing] ++ Text.pieces back) :=
          Text.pieces_ofLines_append hShows.newline back
        have hMarker : (Style.standard.markerOf? block.opening).isNone = false := by
          have hOpening := hShows.markerOf?_opening []
          rw [List.append_nil] at hOpening
          rw [hOpening]
          rfl
        rw [hPieces] at hMem
        rw [hCarried, Text.pieces_append hFront, hPieces]
        exact mem_dropWhile_append hMarker hMem
      · rw [← hCarried]
        intro hNone position hPosition
        obtain ⟨marker, hMem, hStart⟩ := hShows.exists_mem_markers hFront back
        rw [← hCarried] at hMem
        rw [← hStart]
        exact h.importsHead hOld hNone position hPosition marker hMem
  obtain ⟨other, hOther, hOtherLine⟩ := hImported
  unfold text
  cases hHeader : stages.old.header with
  | none => exact ⟨other, hOther, hOtherLine⟩
  | some header =>
    show ∃ last, withHeader header stages.imported = _ ∧ _
    rw [hOther]
    apply exists_withHeader hOtherLine
    rw [← hOther]
    intro position hPosition
    obtain ⟨marker, hMem, hStart⟩ := hShows.exists_mem_markers hOtherLine back
    rw [← hOther] at hMem
    rw [← hStart]
    exact h.header (by simp [hHeader]) position hPosition marker hMem

end Stages

/-! ## The merge -/

/-- If a merge succeeds, its text keeps every section of the old file. -/
def KeepsSections (generated existing : Text) : Prop :=
  ∀ merged, Style.standard.merge generated (some existing) = .ok merged →
    ∀ stages : Stages .standard generated existing, ∀ old ∈ stages.old.classes,
      ∀ part ∈ old.sections, Style.standard.Keeps (stages.sameLine old) merged.text part.content

/-- Sections survive a merge that does not disturb them. -/
theorem sections_survive {generated existing : Text}
    (hGenerated : generated.contains Style.standard.startMarker = false)
    (hUndisturbed : ∀ stages : Stages .standard generated existing, stages.Undisturbed) :
    KeepsSections generated existing := by
  intro merged hMerge stages old hOld part hPart
  obtain ⟨others, rfl⟩ := mergeExisting_eq_ok_iff.mp hMerge
  obtain rfl := Stages.eq stages others
  obtain ⟨front, block, back, hCarried, hFront, hShows⟩ :=
    (hUndisturbed stages).exists_carried hGenerated hOld hPart
  obtain ⟨other, hText, hOther⟩ := (hUndisturbed stages).exists_text hShows hFront hCarried
  show Style.standard.Keeps _ stages.text _
  rw [hText]
  exact hShows.keeps hOther back

/-- A section of a class that is generated and one of a class that is carried over. -/
theorem sections_survive_both :
    ∃ generated existing, generated = "class XdrA \x7b\x7d\n".toList ∧
      existing = ("// A\nimport 'a';\nclass A \x7b\n// CUSTOM_CODE_START\nA a; // \x7d\n" ++
        "// CUSTOM_CODE_END\n\x7d\nclass B \x7b\n// CUSTOM_CODE_START\nB b;\n" ++
        "// CUSTOM_CODE_END\n\x7d\n").toList ∧
      (Stages.find? .standard generated existing).isSome = true ∧
      KeepsSections generated existing := by
  refine ⟨_, _, rfl, rfl, ?_⟩
  rw [String.toList_append, String.toList_append, String.toList_ofList, String.toList_ofList,
    String.toList_ofList, String.toList_ofList]
  refine ⟨by decide +kernel, ?_⟩
  apply sections_survive
  · decide +kernel
  · intro stages
    rw [Stages.eq stages ((Stages.find? .standard _ _).get (by decide +kernel))]
    refine ⟨?_, ?_, ?_, ?_, ?_, ?_, ?_⟩
    · decide +kernel
    · decide +kernel
    · unfold Style.EndsWithin
      decide +kernel
    · decide +kernel
    · decide +kernel
    · decide +kernel
    · decide +kernel

/-! ## Two classes that match one -/

/-- Every line of a section that is kept comes back as a line of the text. -/
theorem Style.Keeps.exists_piece {style : Style} {same : Text → Text → Prop} {text content : Text}
    (h : style.Keeps same text content) {line : Text} (hLine : line ∈ writtenLines content.lines) :
    ∃ piece ∈ text.pieces, ComesBack same line (Text.trimStart piece) := by
  obtain ⟨before, opening, inner, closing, behind, hPieces, -, -, hInner⟩ := h
  have hOther : ∃ other ∈ writtenLines inner, ComesBack same line other := by
    generalize writtenLines content.lines = lines, writtenLines inner = others at hLine hInner
    induction hInner with
    | nil => cases hLine
    | cons hFirst _ ih =>
      rcases List.mem_cons.mp hLine with rfl | hRest
      · exact ⟨_, List.mem_cons_self, hFirst⟩
      · obtain ⟨other, hMem, hSame⟩ := ih hRest
        exact ⟨other, List.mem_cons_of_mem _ hMem, hSame⟩
  obtain ⟨other, hMem, hSame⟩ := hOther
  obtain ⟨piece, hPiece, rfl⟩ := List.mem_map.mp hMem
  refine ⟨piece, ?_, hSame⟩
  rw [hPieces]
  simp [(List.mem_filter.mp hPiece).1]

theorem KeepsSections.exists_piece {generated existing : Text}
    (h : KeepsSections generated existing) (stages : Stages .standard generated existing) :
    ∀ old ∈ stages.old.classes,
      (Style.standard.matchOf? stages.classes old.decl.name).isSome = true →
        ∀ part ∈ old.sections, ∀ line ∈ writtenLines part.content.lines,
          ∃ piece ∈ stages.text.pieces,
            Text.trimStart piece = line ∨ Text.trimStart piece = line ++ ['\r'] := by
  intro old hOld hMatch part hPart line hLine
  have hKept := h _ (mergeExisting_eq_ok_iff.mpr ⟨stages, rfl⟩) stages old hOld part hPart
  obtain ⟨piece, hPiece, shown, hSame, hShown⟩ := hKept.exists_piece hLine
  rw [Stages.sameLine, if_pos hMatch] at hSame
  rw [← hSame] at hShown
  exact ⟨piece, hPiece, hShown⟩

/-- The section of the second of two old classes that match the same generated class is
lost. -/
theorem section_lost :
    ¬KeepsSections "class XdrMemo \x7b\n\x7d\n".toList
      ("class Memo \x7b\n  // CUSTOM_CODE_START\n  int a = 1;\n  // CUSTOM_CODE_END\n\x7d\n\n" ++
        "class XdrMemo \x7b\n  // CUSTOM_CODE_START\n  int b = 2;\n" ++
        "  // CUSTOM_CODE_END\n\x7d\n").toList := by
  rw [String.toList_append, String.toList_append, String.toList_ofList, String.toList_ofList,
    String.toList_ofList, String.toList_ofList]
  intro hKeeps
  have hPieces := hKeeps.exists_piece ((Stages.find? .standard _ _).get (by decide +kernel))
  revert hPieces
  decide +kernel

end XdrBindings.Merge
