import XdrBindings.Proofs.Merge.WrittenSections

/-!
# Sections do not drift

A section is written by hand once, and from then on it is read from the file that is there and
written into the file that replaces it, whenever the bindings are made again.  Writing puts the
indentation of members in place of the one that the lines have in common, counted in bytes.  So the
first round may change the indentation, however spaces, tabs and wider blanks are mixed in it, and
a line may lose all of its own where the count ends within a character.  No later round changes
anything, and none changes more than indentation.

## Main results

* `Style.tellsMarkers_of_isLegible` — the marker lines of a style are told apart.
* `Style.rewritten_eq` — one round: what is read of written sections is what was shown of them.
* `Style.afterRounds_succ` — any number of rounds reads the same as one.
* `sections_do_not_drift` — a section is written with one marker line of each sort, keeps its lines,
  and stands still behind its first round.
-/

namespace XdrBindings.Merge

namespace Style

/-! ## Rounds -/

/-- The contents of the sections of a text, each the text between two marker lines. -/
def contentsOf (style : Style) (text : Text) : Except Refusal (List Text) :=
  (style.pairs text).map fun pairs => pairs.map fun pair => text.slice pair.1.stop pair.2.start

/-- One round: contents are written one behind the other, and read again. -/
def rewritten (style : Style) (contents : List Text) : Except Refusal (List Text) :=
  style.contentsOf (contents.flatMap style.writeSection)

/-- Contents behind a number of rounds. -/
def afterRounds (style : Style) : (rounds : Nat) → List Text → Except Refusal (List Text)
  | 0, contents => .ok contents
  | rounds + 1, contents => do style.afterRounds rounds (← style.rewritten contents)

/-- Content of whole lines that holds neither a carriage return nor a marker. -/
structure IsUnmarked (style : Style) (content : Text) : Prop where
  wholeLines : Text.EndsLine content
  noReturn : '\r' ∉ content
  noStart : content.contains style.startMarker = false
  noEnd : content.contains style.endMarker = false

variable {style : Style}

namespace IsUnmarked

variable {content : Text} (h : style.IsUnmarked content)

include h

theorem exists_of_mem_lines {line : Text} (hMem : line ∈ content.lines) :
    ∃ front back, content = front ++ (line ++ back) := by
  obtain ⟨before, behind, hLines⟩ := List.append_of_mem hMem
  refine ⟨Text.ofLines before, '\n' :: Text.ofLines behind, ?_⟩
  rw [← Text.ofLines_lines h.wholeLines h.noReturn, hLines]
  simp [Text.ofLines]

/-- No line of the content is a marker line. -/
theorem markerOf?_eq_none : ∀ line ∈ content.lines, style.markerOf? line = none := by
  intro line hMem
  obtain ⟨front, back, hContent⟩ := h.exists_of_mem_lines hMem
  have hStart := h.noStart
  have hEnd := h.noEnd
  rw [hContent] at hStart hEnd
  exact markerOf?_eq_none_iff.mpr
    ⟨Text.contains_eq_false_of_append hStart, Text.contains_eq_false_of_append hEnd⟩

theorem getLast?_ne : ∀ line ∈ content.lines, line.getLast? ≠ some '\r' := by
  intro line hMem hLast
  obtain ⟨front, back, hContent⟩ := h.exists_of_mem_lines hMem
  apply h.noReturn
  rw [hContent]
  exact List.mem_append_right _ (List.mem_append_left _ (List.mem_of_getLast? hLast))

end IsUnmarked

variable (hStyle : style.IsLegible)

include hStyle

/-! ## Marker lines -/

/-- A marker that stands in a marker line stands in the marker of the line. -/
theorem contains_of_markerLine {marker other : Text} (hOther : IsMark other)
    (h : Text.contains (style.markerLine marker) other = true) : marker.contains other = true :=
  Text.contains_of_blanks_append (isBlank_memberIndent hStyle) hOther.1
    (Text.contains_of_concat hOther.2 h)

/-- A style whose end marker does not hold its start marker tells its marker lines apart.  A line
with both is a start, so the other way round it does not matter. -/
theorem tellsMarkers_of_isLegible
    (hApart : style.endMarker.contains style.startMarker = false) : style.TellsMarkers where
  startLine := by
    have hStart : Text.contains (style.markerLine style.startMarker) style.startMarker = true :=
      Text.contains_iff.mpr ⟨style.memberIndent, ['\n'], by simp [markerLine]⟩
    simp [markerOf?, hStart]
  endLine := by
    have hEnd : Text.contains (style.markerLine style.endMarker) style.endMarker = true :=
      Text.contains_iff.mpr ⟨style.memberIndent, ['\n'], by simp [markerLine]⟩
    have hStart : Text.contains (style.markerLine style.endMarker) style.startMarker = false := by
      refine Bool.eq_false_iff.mpr fun hContains => ?_
      rw [contains_of_markerLine hStyle hStyle.startMark hContains] at hApart
      cases hApart
    simp [markerOf?, hEnd, hStart]
  emptyLine := by
    have hNone {marker : Text} (hMarker : IsMark marker) :
        Text.contains ['\n'] marker = false := by
      refine Bool.eq_false_iff.mpr fun hContains => ?_
      rw [← List.nil_append ['\n']] at hContains
      have hEmpty := Text.contains_of_concat hMarker.2 hContains
      rw [Text.contains, List.isEmpty_iff] at hEmpty
      have hHead := hMarker.1
      rw [hEmpty] at hHead
      cases hHead
    exact markerOf?_eq_none_iff.mpr ⟨hNone hStyle.startMark, hNone hStyle.endMark⟩

/-! ## Contents -/

/-- What is shown of a content has its lines, but for their indentation. -/
theorem map_trimStart_lines_shown {content : Text} (h : style.IsUnmarked content) :
    (style.shown content).lines.map Text.trimStart = content.lines.map Text.trimStart := by
  rw [lines_shown hStyle h.getLast?_ne, shownLines, List.map_map]
  refine List.map_congr_left fun line hMem => ?_
  obtain ⟨hBlank, hSame⟩ := trimStart_indented hStyle hMem
  cases hLine : Text.isBlankText line with
  | false => exact hSame hLine
  | true =>
    have hNone : Text.trimStart line = [] :=
      List.dropWhile_eq_nil_iff.mpr (List.all_eq_true.mp hLine)
    rw [Function.comp_apply, indented, if_pos hLine, hNone]
    rfl

variable (hApart : style.endMarker.contains style.startMarker = false)

include hApart

/-- One round: what is read of written sections is what was shown of them. -/
theorem rewritten_eq {contents : List Text}
    (hContents : ∀ content ∈ contents, style.IsUnmarked content) :
    style.rewritten contents = .ok (contents.map style.shown) := by
  obtain ⟨pairs, hMarkers, hKinds, hShown⟩ := exists_pairs_written hStyle
    (tellsMarkers_of_isLegible hStyle hApart)
    (fun content hMem => (hContents content hMem).markerOf?_eq_none) 1 0
  have hPairs : style.pairs (contents.flatMap style.writeSection) = .ok pairs :=
    pairs_eq_ok_iff.mpr ⟨hMarkers, fun pair hPair =>
      ⟨(hKinds pair hPair).1, (hKinds pair hPair).2.1⟩⟩
  have hSlices := hShown [] [] rfl
  rw [List.nil_append, List.append_nil] at hSlices
  rw [rewritten, contentsOf, hPairs, Except.map, hSlices]

/-- Any number of rounds reads the same as one. -/
theorem afterRounds_succ {contents : List Text}
    (hContents : ∀ content ∈ contents, style.IsUnmarked content) (rounds : Nat) :
    style.afterRounds (rounds + 1) contents = .ok (contents.map style.shown) := by
  have hWritten : (contents.map style.shown).flatMap style.writeSection =
      contents.flatMap style.writeSection := by
    rw [List.flatMap_map]
    exact List.flatMap_congr fun content hMem =>
      writeSection_shown hStyle (hContents content hMem).getLast?_ne
  have hFirst := rewritten_eq hStyle hApart hContents
  have hAgain : style.rewritten (contents.map style.shown) = .ok (contents.map style.shown) := by
    rw [rewritten, hWritten]
    exact hFirst
  -- what is read in the first round is read again in each later one
  have hLater : style.afterRounds rounds (contents.map style.shown) =
      .ok (contents.map style.shown) := by
    induction rounds with
    | zero => rfl
    | succ rounds ih => exact bind_eq_ok_iff.mpr ⟨_, hAgain, ih⟩
  exact bind_eq_ok_iff.mpr ⟨_, hFirst, hLater⟩

end Style

/-- Code written by hand does not drift.  A section is written with one marker line of each sort;
what is read between them has the lines of the section but for their indentation, is written as the
section was, and is what is read behind any number of rounds. -/
theorem sections_do_not_drift {style : Style} (hStyle : style.IsLegible)
    (hApart : style.endMarker.contains style.startMarker = false) {content : Text}
    (hContent : style.IsUnmarked content) :
    ∃ start finish : Marker,
      style.markers (style.writeSection content) = [start, finish] ∧
      start.kind = .start ∧ finish.kind = .finish ∧
      let extracted := (style.writeSection content).slice start.stop finish.start
      extracted.lines.map Text.trimStart = content.lines.map Text.trimStart ∧
        style.writeSection extracted = style.writeSection content ∧
        ∀ rounds, style.afterRounds (rounds + 1) [content] = .ok [extracted] := by
  obtain ⟨⟨start, finish⟩, hMarkers, hStart, hFinish, -, hSlice⟩ :=
    Style.exists_pair_writeSection hStyle (Style.tellsMarkers_of_isLegible hStyle hApart)
      hContent.markerOf?_eq_none 1 0
  have hShown := hSlice [] [] rfl
  rw [List.nil_append, List.append_nil] at hShown
  refine ⟨start, finish, hMarkers, hStart, hFinish, ?_⟩
  rw [hShown]
  exact ⟨Style.map_trimStart_lines_shown hStyle hContent,
    Style.writeSection_shown hStyle hContent.getLast?_ne,
    Style.afterRounds_succ hStyle hApart (List.forall_mem_singleton.mpr hContent)⟩

/-- A style without line comments, with tabs. -/
def Style.angled : Style :=
  { Style.standard with
    startMarker := "<<custom".toList
    endMarker := "custom>>".toList
    memberIndent := ['\t'] }

/-- Lines under a wide blank of three bytes, two blanks and three, with a blank line between. -/
def mixedLines : Text := "\u2003int a;\n  int b;\n\t \n   int c;\n".toList

theorem mixed_lines_do_not_drift :
    Style.angled.IsLegible ∧ Style.angled.endMarker.contains Style.angled.startMarker = false ∧
      Style.angled.IsUnmarked mixedLines ∧
      ∀ rounds, Style.angled.afterRounds (rounds + 1) [mixedLines] =
        .ok ["\tint a;\n\tint b;\n\n\t int c;\n".toList] := by
  have hStyle : Style.angled.IsLegible :=
    ⟨⟨by decide +kernel, by decide +kernel⟩, ⟨by decide +kernel, by decide +kernel⟩,
      by decide +kernel⟩
  have hApart : Style.angled.endMarker.contains Style.angled.startMarker = false := by
    decide +kernel
  have hContent : Style.angled.IsUnmarked mixedLines :=
    ⟨by unfold Text.EndsLine; decide +kernel, by decide +kernel, by decide +kernel,
      by decide +kernel⟩
  obtain ⟨start, finish, hMarkers, -, -, -, -, hRounds⟩ :=
    sections_do_not_drift hStyle hApart hContent
  have hLines : Style.angled.markers (Style.angled.writeSection mixedLines) =
      [⟨.start, 2, 1, 11⟩, ⟨.finish, 7, 37, 47⟩] := by
    decide +kernel
  obtain ⟨rfl, hFinish⟩ := List.cons.inj (hLines.symm.trans hMarkers)
  obtain ⟨rfl, -⟩ := List.cons.inj hFinish
  refine ⟨hStyle, hApart, hContent, fun rounds => ?_⟩
  rw [hRounds]
  decide +kernel

end XdrBindings.Merge
