import XdrBindings.Proofs.Code.Renamed
import XdrBindings.Proofs.Merge.Kept
import XdrBindings.Proofs.Merge.Stages

/-!
# Sections of classes that are carried over

The source of an old class holds its sections as whole lines, if the line of each end marker
ends in front of the closing brace.  The sources are written one behind the other, and the
renames in them keep lines apart and markers as they are.

## Main results

* `exists_isSource` — a section in the source of its class.
* `areNames_renames` — what is renamed are names of classes.
* `Style.exists_shows_carryOver` — a section behind a text that its class is carried to.
-/

namespace XdrBindings.Merge

open Code

/-! ## Sources -/

/-- A block is a section as it stands in the old file. -/
structure Block.IsSource (block : Block) (style : Style) (content : Text) : Prop where
  newline : ∀ line ∈ block.lines, '\n' ∉ line
  startMark : block.opening.contains style.startMarker = true
  endMark : block.closing.contains style.endMarker = true
  lines_eq : content.lines =
    block.inner.map fun line => Text.stripTerminator (line ++ ['\n'])

/-- Whether the end marker line of each section that begins in a class ends in front of the
closing brace. -/
def Style.EndsWithin (style : Style) (existing : Text) (old : OldClass) : Prop :=
  ∀ pairs ∈ (style.pairs existing).toOption, ∀ pair ∈ pairs,
    old.decl.encloses pair.1.start = true → pair.2.stop ≤ old.decl.closing

instance (style : Style) (existing : Text) (old : OldClass) :
    Decidable (style.EndsWithin existing old) :=
  inferInstanceAs (Decidable (∀ pairs ∈ (style.pairs existing).toOption, ∀ pair ∈ pairs,
    old.decl.encloses pair.1.start = true → pair.2.stop ≤ old.decl.closing))

theorem Style.contains_of_markerOf? {style : Style} {line : Text} {kind : MarkerKind}
    (h : style.markerOf? line = some kind) :
    match kind with
    | .start => line.contains style.startMarker = true
    | .finish => line.contains style.endMarker = true := by
  unfold markerOf? at h
  split at h
  · rename_i hStart
    obtain rfl := Option.some.inj h
    exact hStart
  · split at h
    · rename_i hEnd
      obtain rfl := Option.some.inj h
      exact hEnd
    · cases h

/-- Three parts of a text that are whole lines, as a block. -/
def Block.ofChunks (opening : Text) (inner : List Text) (closing : Text) : Block :=
  ⟨opening.dropLast, inner.map List.dropLast, closing.dropLast⟩

section

variable {opening closing : Text} {inner : List Text}

theorem Block.lines_ofChunks : (ofChunks opening inner closing).lines =
    (opening :: (inner ++ [closing])).map List.dropLast := by
  simp [ofChunks, Block.lines]

theorem Block.text_ofChunks
    (h : ∀ chunk ∈ opening :: (inner ++ [closing]), chunk.dropLast ++ ['\n'] = chunk) :
    (ofChunks opening inner closing).text = (opening :: (inner ++ [closing])).flatten := by
  rw [Block.text, lines_ofChunks]
  exact Text.ofLines_dropLast h

/-- Two marker lines and the lines between them are a section. -/
theorem Block.isSource_ofChunks {style : Style} (hStyle : style.IsPlain)
    (hLine : ∀ chunk ∈ opening :: (inner ++ [closing]),
      chunk.dropLast ++ ['\n'] = chunk ∧ '\n' ∉ chunk.dropLast)
    (hOpening : style.markerOf? opening = some .start)
    (hClosing : style.markerOf? closing = some .finish) :
    (ofChunks opening inner closing).IsSource style inner.flatten := by
  have hMark {chunk marker : Text} (hMem : chunk ∈ opening :: (inner ++ [closing]))
      (hMarker : IsLineMark marker) (hContains : chunk.contains marker = true) :
      Text.contains chunk.dropLast marker = true := by
    rw [← (hLine chunk hMem).1] at hContains
    exact Text.contains_of_concat hMarker.2 hContains
  have hInner : ∀ chunk ∈ inner, chunk ∈ opening :: (inner ++ [closing]) :=
    fun chunk hMem => List.mem_cons_of_mem _ (List.mem_append_left _ hMem)
  refine ⟨?_, ?_, ?_, ?_⟩
  · intro line hMem
    rw [lines_ofChunks] at hMem
    obtain ⟨chunk, hChunk, rfl⟩ := List.mem_map.mp hMem
    exact (hLine chunk hChunk).2
  · exact hMark List.mem_cons_self hStyle.startMark (Style.contains_of_markerOf? hOpening)
  · exact hMark (by simp) hStyle.endMark (Style.contains_of_markerOf? hClosing)
  · rw [← Text.ofLines_dropLast fun chunk hMem => (hLine chunk (hInner chunk hMem)).1]
    apply Text.lines_ofLines
    intro line hMem
    obtain ⟨chunk, hChunk, rfl⟩ := List.mem_map.mp hMem
    exact (hLine chunk (hInner chunk hChunk)).2

end

/-- A section stands in the source of its class as whole lines. -/
theorem exists_isSource {style : Style} {existing : Text} {file : OldFile}
    (hFile : OldFile.ofText style existing = .ok file) {old : OldClass} (hOld : old ∈ file.classes)
    {part : Section} (hPart : part ∈ old.sections) (hStyle : style.IsPlain)
    (hWithin : style.EndsWithin existing old) :
    ∃ front, ∃ block : Block, ∃ back, old.decl.source existing = front ++ (block.text ++ back) ∧
      Text.EndsLine front ∧ block.IsSource style part.content := by
  obtain ⟨pairs, pair, hPairs, hPair, hEncloses, hContent⟩ :=
    exists_pair_of_section hFile hOld hPart
  have hStop := hWithin pairs (by rw [hPairs]; rfl) pair hPair hEncloses
  obtain ⟨hDeclStart, hBrace⟩ :=
    start_lt_opening (OldFile.classesOf_eq hFile) (List.mem_map_of_mem hOld)
  obtain ⟨before, opening, inner, closing, behind, hChunks, hOpening, hClosing, -, -, hFirst,
    hFirstStop, hSecond, hSecondStop, hSlice⟩ := exists_of_mem_pairs hPairs hPair
  have hOpen : old.decl.opening < pair.1.start := by
    unfold ClassDecl.encloses at hEncloses
    rw [Bool.and_eq_true, decide_eq_true_eq] at hEncloses
    exact hEncloses.1
  -- the text in three parts, the lines of the section in the middle
  have hText : existing = before.flatten ++ ((opening :: (inner ++ [closing])).flatten ++
      behind.flatten) := by
    rw [← Text.chunks_flatten existing, hChunks]
    simp
  have hLength : pair.2.stop =
      before.flatten.length + (opening :: (inner ++ [closing])).flatten.length := by
    rw [List.flatten_cons, List.flatten_append, List.flatten_singleton, List.length_append,
      List.length_append]
    omega
  -- the closing brace is behind the section
  have hBehind : behind ≠ [] := by
    rintro rfl
    have hWhole : old.decl.closing < existing.length := (List.getElem?_eq_some_iff.mp hBrace).1
    rw [hText, List.length_append, List.flatten_nil, List.append_nil] at hWhole
    omega
  have hLine : ∀ chunk ∈ opening :: (inner ++ [closing]),
      chunk.dropLast ++ ['\n'] = chunk ∧ '\n' ∉ chunk.dropLast := by
    intro chunk hMem
    have hParts : existing.chunks = (before ++ opening :: (inner ++ [closing])) ++ behind := by
      rw [hChunks]
      simp
    exact Text.dropLast_of_chunks_eq hParts hBehind (List.mem_append_right _ hMem)
  have hBlock : (Block.ofChunks opening inner closing).text =
      (opening :: (inner ++ [closing])).flatten :=
    Block.text_ofChunks fun chunk hMem => (hLine chunk hMem).1
  have hSource : old.decl.source existing =
      before.flatten.drop old.decl.start ++ ((Block.ofChunks opening inner closing).text ++
        behind.flatten.take (old.decl.closing + 1 - pair.2.stop)) := by
    have hStart : old.decl.start ≤ before.flatten.length := by omega
    have hStopLength : before.flatten.length +
        (opening :: (inner ++ [closing])).flatten.length ≤ old.decl.closing + 1 := by omega
    show Text.slice existing _ _ = _
    rw [hText, Text.slice_around hStart hStopLength, hLength, hBlock]
  refine ⟨_, _, _, hSource, ?_, ?_⟩
  · have hFront : Text.EndsLine before.flatten :=
      Text.endsLine_of_chunks_eq hChunks (List.cons_ne_nil _ _)
    rw [← List.take_append_drop old.decl.start before.flatten] at hFront
    exact hFront.of_append
  · rw [hContent, hSlice]
    exact Block.isSource_ofChunks hStyle hLine hOpening hClosing

/-! ## Renames -/

variable {renames : List (Text × Text)}

/-- The lines of a block are renamed one by one. -/
theorem exists_renamed_block (hNames : AreNames renames) {block : Block} {back text : Text}
    (h : RenamedAll renames (block.text ++ back) text) :
    ∃ other : Block, ∃ last, text = other.text ++ last ∧
      RenamedAll renames block.opening other.opening ∧
      List.Forall₂ (RenamedAll renames) block.inner other.inner ∧
      RenamedAll renames block.closing other.closing ∧ RenamedAll renames back last := by
  have hText : block.text ++ back = block.opening ++ '\n' :: (Text.ofLines block.inner ++
      (block.closing ++ '\n' :: back)) := by
    simp [Block.text, Block.lines, Text.ofLines]
  rw [hText] at h
  obtain ⟨opening, rest, rfl, hOpening, hRest⟩ := h.split hNames rfl rfl
  obtain ⟨inner, tail, rfl, hInner, hTail⟩ := hRest.lines hNames
  obtain ⟨closing, last, rfl, hClosing, hLast⟩ := hTail.split hNames rfl rfl
  refine ⟨⟨opening, inner, closing⟩, last, ?_, hOpening, hInner, hClosing, hLast⟩
  simp [Block.text, Block.lines, Text.ofLines]

/-- A line that is renamed comes back. -/
theorem comesBack_renamed (hNames : AreNames renames) {line other : Text}
    (h : RenamedAll renames line other) :
    Text.isBlankText other = Text.isBlankText (Text.stripTerminator (line ++ ['\n'])) ∧
      (Text.isBlankText (Text.stripTerminator (line ++ ['\n'])) = false →
        ComesBack (RenamedAll renames)
          (Text.trimStart (Text.stripTerminator (line ++ ['\n']))) (Text.trimStart other)) := by
  have hBlank := h.isBlankText_eq hNames
  rcases Text.stripTerminator_concat_or line with hSame | hReturn
  · rw [hSame]
    exact ⟨hBlank, fun _ => ⟨_, h.trimStart hNames, .inl rfl⟩⟩
  · generalize Text.stripTerminator (line ++ ['\n']) = front at hReturn
    rw [hReturn] at h hBlank
    obtain ⟨shown, last, rfl, hShown, hLast⟩ := h.split hNames rfl rfl
    have hEnding (text : Text) : Text.isBlankText (text ++ ['\r']) = Text.isBlankText text := by
      rw [Text.isBlankText_append]
      exact Bool.and_true _
    rw [hLast.eq_nil hNames rfl] at hBlank ⊢
    rw [hEnding, hEnding] at hBlank
    rw [hEnding]
    refine ⟨hBlank, fun hWritten => ?_⟩
    rw [hWritten] at hBlank
    rw [Text.trimStart_append_of_isBlankText hBlank]
    exact ⟨_, hShown.trimStart hNames, .inr rfl⟩

/-- A section stays a section behind renames that keep its markers. -/
theorem Block.IsSource.shows_renamed {style : Style} {block other : Block} {content : Text}
    (h : block.IsSource style content) (hNames : AreNames renames)
    (hOpening : RenamedAll renames block.opening other.opening)
    (hInner : List.Forall₂ (RenamedAll renames) block.inner other.inner)
    (hClosing : RenamedAll renames block.closing other.closing)
    (hStart : ∀ line other, RenamedAll renames line other →
      Text.contains line style.startMarker = true → Text.contains other style.startMarker = true)
    (hEnd : ∀ line other, RenamedAll renames line other →
      Text.contains line style.endMarker = true → Text.contains other style.endMarker = true) :
    other.Shows style (RenamedAll renames) content := by
  refine ⟨?_, hStart _ _ hOpening h.startMark, hEnd _ _ hClosing h.endMark, ?_⟩
  · have hLines : List.Forall₂ (RenamedAll renames) block.lines other.lines :=
      .cons hOpening (List.rel_append hInner (.cons hClosing .nil))
    exact newline_not_mem_of_renamed hNames hLines h.newline
  · apply forall₂_writtenLines
    rw [h.lines_eq, List.forall₂_map_left_iff]
    exact hInner.imp fun _ _ hLine => comesBack_renamed hNames hLine

theorem renamedAll_renameAll (hNames : AreNames renames) (text : Text) :
    RenamedAll renames text (renameAll renames text) := by
  induction renames generalizing text with
  | nil => exact .nil
  | cons rename rest ih =>
    obtain ⟨hOld, -⟩ := hNames rename List.mem_cons_self
    have hRest := ih (fun other hMem => hNames other (List.mem_cons_of_mem _ hMem))
      (renameWord rename.1 rename.2 text)
    exact .cons (renamed_renameWord hOld.1 text) hRest

/-- What is renamed are names of classes. -/
theorem areNames_renames {style : Style} (hStart : ∀ c ∈ style.classStart, isNameChar c = true)
    {carried : List OldClass} {generated : List ClassDecl}
    (hCarried : ∀ old ∈ carried, IsName old.decl.name)
    (hGenerated : ∀ decl ∈ generated, IsName decl.name) :
    AreNames (style.renames carried generated) := by
  intro rename hMem
  rcases List.mem_append.mp hMem with hOld | hNew
  · obtain ⟨old, hIn, hRename⟩ := List.mem_filterMap.mp hOld
    obtain ⟨newName, hNewName, rfl⟩ := Option.map_eq_some_iff.mp hRename
    unfold Style.generatedName? at hNewName
    split at hNewName
    · cases hNewName
    · obtain rfl := Option.some.inj hNewName
      have hName := hCarried old hIn
      refine ⟨hName, fun hNil => hName.1 (List.append_eq_nil_iff.mp hNil).2, ?_⟩
      intro c hc
      rcases List.mem_append.mp hc with hFront | hBack
      · exact hStart c hFront
      · exact hName.2 c hBack
  · obtain ⟨decl, hIn, hRename⟩ := List.mem_filterMap.mp hNew
    have hName := hGenerated decl hIn
    split at hRename
    · dsimp only at hRename
      split at hRename
      · rename_i hUpper
        obtain rfl := Option.some.inj hRename
        refine ⟨⟨?_, ?_⟩, hName⟩
        · intro hNil
          dsimp only at hNil
          rw [hNil] at hUpper
          cases hUpper
        · intro c hc
          exact hName.2 c (List.mem_of_mem_drop hc)
      · cases hRename
    · cases hRename

/-! ## The text that classes are carried to -/

theorem exists_join (separator : Text) {part : Text} {parts : List Text} (h : part ∈ parts) :
    ∃ front back, Text.join separator parts = front ++ (part ++ back) ∧
      (front = [] ∨ ∃ first, front = first ++ separator) := by
  induction parts with
  | nil => cases h
  | cons first rest ih =>
    rcases List.mem_cons.mp h with rfl | hMem
    · cases rest with
      | nil => exact ⟨[], [], by simp [Text.join, List.intercalate], .inl rfl⟩
      | cons second others =>
        exact ⟨[], separator ++ Text.join separator (second :: others),
          by simp [Text.join, List.intercalate], .inl rfl⟩
    · cases rest with
      | nil => cases hMem
      | cons second others =>
        obtain ⟨front, back, hJoin, hFront⟩ := ih hMem
        refine ⟨first ++ separator ++ front, back, ?_, .inr ?_⟩
        · rw [List.append_assoc, ← hJoin]
          simp [Text.join, List.intercalate]
        · rcases hFront with rfl | ⟨before, rfl⟩
          · exact ⟨first, List.append_nil _⟩
          · exact ⟨first ++ separator ++ before, by simp⟩

/-- A marker stays where it stands. -/
def KeepsMarker (renames : List (Text × Text)) (marker : Text) : Prop :=
  ∀ line other, RenamedAll renames line other → Text.contains line marker = true →
    Text.contains other marker = true

theorem keepsMarker_of_startsWith (hNames : AreNames renames) {word : Text}
    (hWord : ∀ d ∈ word, Text.isWord d = true)
    (hNone : ∀ rename ∈ renames, Text.startsWith rename.1 word = false) :
    KeepsMarker renames ("// ".toList ++ word) := by
  intro line other hLine hContains
  have hMarks : ∀ d ∈ "// ".toList, isNameChar d = false := List.forall_mem_cons.mpr
    ⟨rfl, List.forall_mem_cons.mpr ⟨rfl, List.forall_mem_cons.mpr ⟨rfl, nofun⟩⟩⟩
  exact hLine.contains_mark hNames hMarks rfl hWord hNone hContains

/-- The sections of a class come with it. -/
theorem Style.exists_shows_carryOver {style : Style} (hStyle : style.IsPlain)
    {text existing other : Text} {file : OldFile} {carried : List OldClass}
    {generated : List ClassDecl} (hFile : OldFile.ofText style existing = .ok file)
    (hFound : classesOf text = .ok generated)
    (hOther : style.carryOver text existing carried = .ok other)
    (hNames : AreNames (style.renames carried generated))
    (hStart : KeepsMarker (style.renames carried generated) style.startMarker)
    (hEnd : KeepsMarker (style.renames carried generated) style.endMarker) {old : OldClass}
    (hOld : old ∈ file.classes) (hCarried : old ∈ carried) {part : Section}
    (hPart : part ∈ old.sections) (hWithin : style.EndsWithin existing old) :
    ∃ front, ∃ block : Block, ∃ back, other = front ++ (block.text ++ back) ∧
      Text.EndsLine front ∧
      block.Shows style (RenamedAll (style.renames carried generated)) part.content := by
  obtain ⟨found, hSame, rfl⟩ := carryOver_eq_ok_iff.mp hOther
  obtain rfl := Except.ok.inj (hFound.symm.trans hSame)
  obtain ⟨first, block, last, hSource, hFirst, hBlock⟩ :=
    exists_isSource hFile hOld hPart hStyle hWithin
  have hMem : old.decl.source existing ∈ carried.map fun old => old.decl.source existing :=
    List.mem_map_of_mem hCarried
  obtain ⟨front, back, hJoin, hFront⟩ := exists_join ['\n', '\n'] hMem
  have hFrontLine : Text.EndsLine (front ++ first) := by
    apply Text.EndsLine.append ?_ hFirst
    rcases hFront with rfl | ⟨before, rfl⟩
    · exact Text.endsLine_nil
    · have hLine := Text.endsLine_concat (before ++ ['\n'])
      rw [List.append_assoc] at hLine
      exact hLine
  have hSources : Text.join ['\n', '\n'] (carried.map fun old => old.decl.source existing) =
      Text.ofLines (Text.rows (front ++ first)) ++ (block.text ++ (last ++ back)) := by
    rw [hJoin, hSource, Text.ofLines_rows hFrontLine]
    simp
  have hRenamed := renamedAll_renameAll hNames
    (Text.join ['\n', '\n'] (carried.map fun old => old.decl.source existing))
  generalize renameAll _ (Text.join _ _) = renamed at hRenamed
  rw [hSources] at hRenamed
  obtain ⟨rows, rest, rfl, -, hRest⟩ := hRenamed.lines hNames
  obtain ⟨shown, tail, rfl, hOpening, hInner, hClosing, -⟩ := exists_renamed_block hNames hRest
  have hShown := hBlock.shows_renamed hNames hOpening hInner hClosing hStart hEnd
  refine ⟨Text.trimEnd text ++ ['\n', '\n'] ++ style.carriedLabel ++ ['\n'] ++ Text.ofLines rows,
    shown, tail ++ ['\n'], by simp, ?_, hShown⟩
  exact (Text.endsLine_concat _).append (Text.endsLine_ofLines rows)

end XdrBindings.Merge
