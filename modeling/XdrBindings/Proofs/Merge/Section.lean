import XdrBindings.Merge.Splice
import XdrBindings.Proofs.Code.ClassBody
import XdrBindings.Proofs.Text.Trim

/-!
# Written sections are closed

A section is written with its lines indented anew, between two comment lines, behind an
empty line.  If its content is closed then so is what is written: what the indentation of a
line loses and gains is blank, and so it changes neither where the reader is behind the line
nor the blocks that the line opens.

Every line is written with a newline alone.  So what counts is the content with a newline
behind each of its lines: a carriage return before a newline is dropped, and a backslash that
took it takes the newline then.

## Main results

* `Style.shifted_indentLine` — writing a line changes its indentation only.
* `Style.isClosed_writeSections` — sections as they are written.
-/

namespace XdrBindings.Merge

open Code

/-- Whether a marker is a line comment. -/
def IsLineMark (marker : Text) : Prop := marker.startsWith "//".toList = true ∧ '\n' ∉ marker

theorem IsLineMark.head? {marker : Text} (h : IsLineMark marker) :
    marker.head?.any (!Text.isBlank ·) = true := by
  obtain ⟨rest, rfl⟩ := List.isPrefixOf_iff_prefix.mp h.1
  rfl

/-- Whether a marker begins with a character that is not blank and stays on its line. -/
def IsMark (marker : Text) : Prop :=
  marker.head?.any (!Text.isBlank ·) = true ∧ '\n' ∉ marker

theorem IsLineMark.isMark {marker : Text} (h : IsLineMark marker) : IsMark marker :=
  ⟨h.head?, h.2⟩

/-- Content that consists of whole lines, without carriage returns, and is closed. -/
structure IsClosedLines (content : Text) : Prop where
  closed : IsClosed content
  wholeLines : Text.EndsLine content
  noReturn : '\r' ∉ content

theorem IsClosedLines.isClosed_lines {content : Text} (h : IsClosedLines content) :
    IsClosed (Text.ofLines content.lines) := by
  rw [Text.ofLines_lines h.wholeLines h.noReturn]
  exact h.closed

namespace Style

/-- A style whose markers stand out against blanks and whose members are indented by spaces and
tabs. -/
structure IsLegible (style : Style) : Prop where
  startMark : IsMark style.startMarker
  endMark : IsMark style.endMarker
  indent : ∀ c ∈ style.memberIndent, c = ' ' ∨ c = '\t'

/-- A style whose markers are line comments and whose members are indented by spaces and
tabs. -/
structure IsPlain (style : Style) : Prop where
  startMark : IsLineMark style.startMarker
  endMark : IsLineMark style.endMarker
  indent : ∀ c ∈ style.memberIndent, c = ' ' ∨ c = '\t'

theorem IsPlain.isLegible {style : Style} (h : style.IsPlain) : style.IsLegible where
  startMark := h.startMark.isMark
  endMark := h.endMark.isMark
  indent := h.indent

theorem isPlain_standard : standard.IsPlain where
  startMark := ⟨rfl, by decide⟩
  endMark := ⟨rfl, by decide⟩
  indent := by
    intro c hc
    left
    simpa [standard] using hc

theorem endsLine_indentLine (style : Style) (common : Nat) (line : Text) :
    Text.EndsLine (style.indentLine common line) := by
  unfold indentLine
  split
  · exact Text.endsLine_concat []
  · exact Text.endsLine_concat _

/-- Taking the common indentation off a line takes blanks off. -/
theorem exists_unindented {lines : List Text} {line : Text} (hMem : line ∈ lines)
    (hBlank : Text.isBlankText line = false) :
    ∃ front rest, line = front ++ rest ∧ (∀ c ∈ front, Text.isBlank c = true) ∧
      (Text.dropBytes? (commonIndent lines) line).getD (Text.trimStart line) = rest := by
  have hCommon : commonIndent lines ≤ indentWidth line := commonIndent_le hMem hBlank
  cases hDrop : Text.dropBytes? (commonIndent lines) line with
  | none =>
    have hBlanks : ∀ c ∈ line.takeWhile Text.isBlank, Text.isBlank c = true :=
      List.all_eq_true.mp List.all_takeWhile
    exact ⟨_, Text.trimStart line, List.takeWhile_append_dropWhile.symm, hBlanks, rfl⟩
  | some rest =>
    obtain ⟨front, hFront, hWidth⟩ := Text.exists_of_dropBytes? hDrop
    have hFits : Text.byteSize front ≤
        Text.byteSize ((front ++ rest).takeWhile Text.isBlank) := by
      rw [← hFront, hWidth]
      exact hCommon
    exact ⟨front, rest, hFront, Text.all_of_byteSize_le hFits, rfl⟩

variable {style : Style} (hStyle : style.IsPlain)

include hStyle

theorem isInert_memberIndent : ∀ c ∈ style.memberIndent, isInert c = true := by
  intro c hc
  rcases hStyle.indent c hc with rfl | rfl <;> rfl

/-! ## Lines -/

theorem shifted_indentLine {lines : List Text} {line : Text} (hMem : line ∈ lines)
    (hLine : '\n' ∉ line) :
    Reader.Shifted (line ++ ['\n']) (style.indentLine (commonIndent lines) line) := by
  have hInert {front rest : Text} (hFront : line = front ++ rest)
      (hBlanks : ∀ c ∈ front, Text.isBlank c = true) : ∀ c ∈ front, isInert c = true := by
    intro c hc
    refine isInert_of_isBlank (hBlanks c hc) ?_
    rintro rfl
    rw [hFront] at hLine
    exact hLine (List.mem_append_left _ hc)
  unfold indentLine
  split
  · rename_i hBlank
    have hAll : ∀ c ∈ line, Text.isBlank c = true := List.all_eq_true.mp hBlank
    exact ⟨line, [], [], rfl, rfl, hInert (List.append_nil line).symm hAll, by simp⟩
  · rename_i hBlank
    obtain ⟨front, rest, hFront, hBlanks, hRest⟩ := exists_unindented hMem (by simpa using hBlank)
    refine ⟨front, style.memberIndent, rest, ?_, ?_, hInert hFront hBlanks,
      isInert_memberIndent hStyle⟩
    · rw [← List.append_assoc, ← hFront]
    · rw [hRest, List.append_assoc]

/-! ## Sections -/

/-- Lines indented anew are closed if they are. -/
theorem isClosed_indentLines {lines : List Text} (hLines : ∀ line ∈ lines, '\n' ∉ line)
    (hClosed : IsClosed (Text.ofLines lines)) :
    IsClosed (lines.flatMap (style.indentLine (commonIndent lines))) := by
  have hShifted : ∀ line ∈ lines, Reader.Shifted (line ++ ['\n'])
      (style.indentLine (commonIndent lines) line) := by
    intro line hMem
    exact shifted_indentLine hStyle hMem (hLines line hMem)
  obtain ⟨hAfter, hBlocks⟩ := Reader.after_shiftedLines hShifted .code
  exact ⟨hAfter.mode.symm.trans hClosed.ends, (hBlocks 0).symm.trans hClosed.balanced⟩

theorem isClosed_markerLine {marker : Text} (hMarker : IsLineMark marker) :
    IsClosed (style.markerLine marker) :=
  isClosed_commentLine (isInert_memberIndent hStyle) hMarker.1 hMarker.2

/-- What is written of a section behind its empty line. -/
theorem exists_writeSection {content : Text} (hClosed : IsClosed (Text.ofLines content.lines)) :
    ∃ block, style.writeSection content = '\n' :: block ∧ IsClosed block ∧
      Text.EndsLine block := by
  have hStart := isClosed_markerLine hStyle hStyle.startMark
  have hLines := isClosed_indentLines hStyle
    (fun _ hMem => Text.newline_not_mem_of_mem_lines hMem) hClosed
  have hEnd := isClosed_markerLine hStyle hStyle.endMark
  have hStartLine : Text.EndsLine (style.markerLine style.startMarker) := Text.endsLine_concat _
  have hContentLine :
      Text.EndsLine (content.lines.flatMap (style.indentLine (commonIndent content.lines))) :=
    Text.endsLine_flatMap fun line _ => style.endsLine_indentLine _ line
  have hEndLine : Text.EndsLine (style.markerLine style.endMarker) := Text.endsLine_concat _
  have hBlock := (hStart.append hStartLine hLines).append (hStartLine.append hContentLine) hEnd
  exact ⟨_, by simp [writeSection], hBlock, (hStartLine.append hContentLine).append hEndLine⟩

/-- Sections as they are written, one behind the other. -/
theorem isClosed_writeSections {contents : List Text}
    (hContents : ∀ content ∈ contents, IsClosed (Text.ofLines content.lines)) :
    IsClosed (contents.flatMap style.writeSection) := by
  induction contents with
  | nil => exact isClosed_nil
  | cons content rest ih =>
    obtain ⟨block, hWritten, hBlock, hBlockLine⟩ :=
      exists_writeSection hStyle (hContents content List.mem_cons_self)
    have hRest := ih fun other hMem => hContents other (List.mem_cons_of_mem _ hMem)
    have hNewline : IsClosed ['\n'] := ⟨rfl, rfl⟩
    have hSection := hNewline.append (Text.endsLine_concat []) hBlock
    have hSectionLine : Text.EndsLine (['\n'] ++ block) :=
      (Text.endsLine_concat []).append hBlockLine
    rw [List.flatMap_cons, hWritten]
    exact hSection.append hSectionLine hRest

end Style

end XdrBindings.Merge
