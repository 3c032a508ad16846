import Mathlib.Data.List.Forall2
import XdrBindings.Proofs.Merge.Section

/-!
# How a section stands in a text

A section is kept by a text if the text has a line with the start marker, then the lines of
the section and then a line with the end marker.  Blank lines and the indentation of the
others do not count.

## Main results

* `Block.Shows.keeps` — a text with a block of a section keeps the section.
* `forall₂_writtenLines` — lines that correspond one by one.
* `Style.exists_shows_writeSection` — a section as it is written into a class is a block.
-/

namespace XdrBindings.Merge

open Code

/-! ## Sections in a text -/

/-- The lines that are not blank, without their indentation. -/
def writtenLines (lines : List Text) : List Text :=
  (lines.filter fun line => !Text.isBlankText line).map Text.trimStart

/-- A line comes back as another one, which may have the carriage return of its ending. -/
def ComesBack (same : Text → Text → Prop) (line other : Text) : Prop :=
  ∃ shown, same line shown ∧ (other = shown ∨ other = shown ++ ['\r'])

/-- A section stands in a text between two marker lines, with its lines as `same` has
them. -/
def Style.Keeps (style : Style) (same : Text → Text → Prop) (text content : Text) : Prop :=
  ∃ before opening inner closing behind,
    text.pieces = before ++ opening :: (inner ++ closing :: behind) ∧
      opening.contains style.startMarker = true ∧ closing.contains style.endMarker = true ∧
      List.Forall₂ (ComesBack same) (writtenLines content.lines) (writtenLines inner)

/-- The lines of a section with its marker lines. -/
structure Block where
  opening : Text
  inner : List Text
  closing : Text

def Block.lines (block : Block) : List Text := block.opening :: (block.inner ++ [block.closing])

def Block.text (block : Block) : Text := Text.ofLines block.lines

/-- A block holds a section. -/
structure Block.Shows (block : Block) (style : Style) (same : Text → Text → Prop)
    (content : Text) : Prop where
  newline : ∀ line ∈ block.lines, '\n' ∉ line
  startMark : block.opening.contains style.startMarker = true
  endMark : block.closing.contains style.endMarker = true
  inner : List.Forall₂ (ComesBack same) (writtenLines content.lines) (writtenLines block.inner)

theorem Block.Shows.keeps {block : Block} {style : Style} {same : Text → Text → Prop}
    {content front : Text} (h : block.Shows style same content) (hFront : Text.EndsLine front)
    (back : Text) : style.Keeps same (front ++ (block.text ++ back)) content := by
  have hPieces : Text.pieces (front ++ (block.text ++ back)) =
      Text.rows front ++ block.opening :: (block.inner ++ block.closing :: Text.pieces back) := by
    rw [Text.pieces_append hFront, Block.text, Text.pieces_ofLines_append h.newline, Block.lines]
    simp
  exact ⟨_, _, _, _, _, hPieces, h.startMark, h.endMark, h.inner⟩

theorem forall₂_writtenLines {same : Text → Text → Prop} {lines others : List Text}
    (h : List.Forall₂ (fun line other => Text.isBlankText other = Text.isBlankText line ∧
      (Text.isBlankText line = false → same (Text.trimStart line) (Text.trimStart other)))
      lines others) : List.Forall₂ same (writtenLines lines) (writtenLines others) := by
  induction h with
  | nil => exact .nil
  | cons hLine _ ih =>
    obtain ⟨hBlank, hSame⟩ := hLine
    unfold writtenLines at ih ⊢
    rename_i line other _ _ _
    cases hWritten : Text.isBlankText line with
    | true =>
      rw [hWritten] at hBlank
      rw [List.filter_cons_of_neg (by simp [hWritten]), List.filter_cons_of_neg (by simp [hBlank])]
      exact ih
    | false =>
      rw [hWritten] at hBlank
      rw [List.filter_cons_of_pos (by simp [hWritten]), List.filter_cons_of_pos (by simp [hBlank])]
      exact .cons (hSame hWritten) ih

/-! ## Sections as they are written -/

namespace Style

/-- A line with the indentation of members, without its newline. -/
def indented (style : Style) (common : Nat) (line : Text) : Text :=
  if Text.isBlankText line then []
  else style.memberIndent ++ (Text.dropBytes? common line).getD (Text.trimStart line)

theorem indentLine_eq (style : Style) (common : Nat) (line : Text) :
    style.indentLine common line = style.indented common line ++ ['\n'] := by
  unfold indentLine indented
  split
  · rfl
  · rfl

/-- The lines of a section as they stand between its marker lines. -/
def shownLines (style : Style) (content : Text) : List Text :=
  content.lines.map (style.indented (commonIndent content.lines))

/-- The text between the marker lines of a section. -/
def shown (style : Style) (content : Text) : Text := Text.ofLines (style.shownLines content)

/-- A section as it is written, behind its empty line. -/
def sectionBlock (style : Style) (content : Text) : Block :=
  ⟨style.memberIndent ++ style.startMarker, style.shownLines content,
    style.memberIndent ++ style.endMarker⟩

theorem flatMap_indentLine (style : Style) (content : Text) :
    content.lines.flatMap (style.indentLine (commonIndent content.lines)) =
      style.shown content := by
  rw [shown, shownLines, Text.ofLines, List.flatMap_map]
  exact List.flatMap_congr fun line _ => style.indentLine_eq _ line

theorem writeSection_eq (style : Style) (content : Text) :
    style.writeSection content = '\n' :: (style.sectionBlock content).text := by
  unfold writeSection
  dsimp only
  rw [flatMap_indentLine]
  simp [sectionBlock, shown, Block.text, Block.lines, Text.ofLines, markerLine]

variable {style : Style} (hStyle : style.IsLegible)

include hStyle

theorem newline_not_mem_memberIndent : '\n' ∉ style.memberIndent := by
  intro hMem
  rcases hStyle.indent '\n' hMem with hEq | hEq <;> cases hEq

/-- Indenting a line changes nothing but its indentation. -/
theorem trimStart_indented {lines : List Text} {line : Text} (hMem : line ∈ lines) :
    Text.isBlankText (style.indented (commonIndent lines) line) = Text.isBlankText line ∧
      (Text.isBlankText line = false →
        Text.trimStart (style.indented (commonIndent lines) line) = Text.trimStart line) := by
  unfold indented
  cases hBlank : Text.isBlankText line with
  | true => exact ⟨rfl, nofun⟩
  | false =>
    obtain ⟨front, rest, hLine, hFront, hRest⟩ := exists_unindented hMem hBlank
    have hIndent : ∀ c ∈ style.memberIndent, Text.isBlank c = true := by
      intro c hc
      rcases hStyle.indent c hc with rfl | rfl <;> rfl
    have hFrontBlank : Text.isBlankText front = true := List.all_eq_true.mpr hFront
    have hIndentBlank : Text.isBlankText style.memberIndent = true := List.all_eq_true.mpr hIndent
    rw [if_neg (by decide), hRest, hLine, Text.isBlankText_append, hIndentBlank]
    rw [hLine, Text.isBlankText_append, hFrontBlank] at hBlank
    refine ⟨hBlank, fun _ => ?_⟩
    rw [Text.trimStart_append hIndent, Text.trimStart_append hFront]

theorem newline_not_mem_indented {lines : List Text} {line : Text} (hMem : line ∈ lines)
    (hLine : '\n' ∉ line) : '\n' ∉ style.indented (commonIndent lines) line := by
  unfold indented
  split
  · nofun
  · rename_i hBlank
    obtain ⟨front, rest, rfl, -, hRest⟩ := exists_unindented hMem (by simpa using hBlank)
    rw [hRest]
    intro hIn
    rcases List.mem_append.mp hIn with hIndent | hRestMem
    · exact newline_not_mem_memberIndent hStyle hIndent
    · exact hLine (List.mem_append_right _ hRestMem)

theorem newline_not_mem_shownLines {content line : Text} (h : line ∈ style.shownLines content) :
    '\n' ∉ line := by
  obtain ⟨other, hOther, rfl⟩ := List.mem_map.mp h
  exact newline_not_mem_indented hStyle hOther (Text.newline_not_mem_of_mem_lines hOther)

theorem newline_not_mem_sectionBlock {content line : Text}
    (h : line ∈ (style.sectionBlock content).lines) : '\n' ∉ line := by
  have hNewline {marker : Text} (hMarker : IsMark marker) :
      '\n' ∉ style.memberIndent ++ marker := by
    intro hMem
    rcases List.mem_append.mp hMem with hIndent | hMark
    · exact newline_not_mem_memberIndent hStyle hIndent
    · exact hMarker.2 hMark
  rcases List.mem_cons.mp h with rfl | hMem
  · exact hNewline hStyle.startMark
  · rcases List.mem_append.mp hMem with hInner | hClosing
    · exact newline_not_mem_shownLines hStyle hInner
    · rw [List.mem_singleton.mp hClosing]
      exact hNewline hStyle.endMark

/-- What is written of a section is a block with its lines, behind an empty line. -/
theorem exists_shows_writeSection (content : Text) :
    ∃ block : Block, style.writeSection content = '\n' :: block.text ∧
      block.Shows style Eq content := by
  have hMark (marker : Text) : Text.contains (style.memberIndent ++ marker) marker = true :=
    Text.contains_iff.mpr ⟨style.memberIndent, [], by simp⟩
  refine ⟨style.sectionBlock content, style.writeSection_eq content,
    fun _ hMem => newline_not_mem_sectionBlock hStyle hMem, hMark _, hMark _, ?_⟩
  apply forall₂_writtenLines
  change List.Forall₂ _ content.lines (style.shownLines content)
  rw [shownLines, List.forall₂_map_right_iff, List.forall₂_same]
  intro line hMem
  obtain ⟨hBlank, hSame⟩ := trimStart_indented hStyle hMem
  exact ⟨hBlank, fun hWritten => ⟨_, (hSame hWritten).symm, .inl rfl⟩⟩

end Style

end XdrBindings.Merge
