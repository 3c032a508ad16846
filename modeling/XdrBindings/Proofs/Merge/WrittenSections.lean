import XdrBindings.Proofs.Merge.Kept
import XdrBindings.Proofs.Merge.OldFile

/-!
# Sections behind writing

A section is written with new indentation between two marker lines.  What stands between these
lines is the content that is read of it the next time, and it is written then as it is: the
lines have the indentation of members already.

## Main results

* `commonIndent_shownLines` — what written lines have in common is the indentation of members.
* `Style.writeSection_shown` — a section that is read back is written as it was.
* `Style.exists_pairs_written` — the marker lines of written sections, with the contents between.
-/

namespace XdrBindings.Merge

open Code

/-! ## Indentation -/

theorem indentWidth_append {front : Text} (h : ∀ c ∈ front, Text.isBlank c = true) (rest : Text) :
    indentWidth (front ++ rest) = Text.byteSize front + indentWidth rest := by
  unfold indentWidth
  rw [List.takeWhile_append_of_pos h, Text.byteSize_append]

theorem dropBytes?_append (front rest : Text) :
    Text.dropBytes? (Text.byteSize front) (front ++ rest) = some rest := by
  induction front with
  | nil => cases rest <;> rfl
  | cons c front ih =>
    have hWidth : 0 < c.utf8Size := Char.utf8Size_pos c
    obtain ⟨count, hCount⟩ : ∃ count, Text.byteSize (c :: front) = count + 1 :=
      ⟨c.utf8Size + Text.byteSize front - 1, by rw [Text.byteSize_cons]; omega⟩
    have hRest : count + 1 - c.utf8Size = Text.byteSize front := by
      rw [← hCount, Text.byteSize_cons]
      omega
    have hFits : c.utf8Size ≤ count + 1 := by
      rw [← hCount, Text.byteSize_cons]
      omega
    rw [hCount, List.cons_append, Text.dropBytes?, if_pos hFits, hRest, ih]

/-- One of the lines that are not blank has no more indentation than all of them. -/
theorem exists_least_indentWidth {lines : List Text} {line : Text} (hMem : line ∈ lines)
    (hBlank : Text.isBlankText line = false) :
    ∃ least ∈ lines, Text.isBlankText least = false ∧ indentWidth least = commonIndent lines := by
  unfold commonIndent
  cases hMin : ((lines.filter fun line => !Text.isBlankText line).map indentWidth).min? with
  | none =>
    have hNone := List.map_eq_nil_iff.mp (List.min?_eq_none_iff.mp hMin)
    have hIn : line ∈ lines.filter fun line => !Text.isBlankText line :=
      List.mem_filter.mpr ⟨hMem, by rw [hBlank]; rfl⟩
    rw [hNone] at hIn
    cases hIn
  | some width =>
    obtain ⟨least, hLeast, hWidth⟩ := List.mem_map.mp (List.min?_eq_some_iff.mp hMin).1
    obtain ⟨hIn, hShown⟩ := List.mem_filter.mp hLeast
    exact ⟨least, hIn, by simpa using hShown, hWidth⟩

namespace Style

/-- A written line is empty, or what was left of a line behind the indentation of members. -/
theorem mem_shownLines {style : Style} {content line : Text} (h : line ∈ style.shownLines content) :
    line = [] ∨ ∃ front rest, front ++ rest ∈ content.lines ∧
      (∀ c ∈ front, Text.isBlank c = true) ∧ Text.isBlankText rest = false ∧
      line = style.memberIndent ++ rest := by
  obtain ⟨other, hOther, rfl⟩ := List.mem_map.mp h
  unfold indented
  cases hBlank : Text.isBlankText other with
  | true => exact .inl rfl
  | false =>
    obtain ⟨front, rest, rfl, hFront, hRest⟩ := exists_unindented hOther hBlank
    have hFrontBlank : Text.isBlankText front = true := List.all_eq_true.mpr hFront
    rw [Text.isBlankText_append, hFrontBlank, Bool.true_and] at hBlank
    refine .inr ⟨front, rest, hOther, hFront, hBlank, ?_⟩
    rw [if_neg (by decide), hRest]

section

variable {style : Style} (hStyle : style.IsLegible)

include hStyle

theorem isBlank_memberIndent : ∀ c ∈ style.memberIndent, Text.isBlank c = true := by
  intro c hc
  rcases hStyle.indent c hc with rfl | rfl <;> rfl

/-- What written lines have in common is the indentation of members. -/
theorem commonIndent_shownLines {content line : Text} (hMem : line ∈ style.shownLines content)
    (hBlank : Text.isBlankText line = false) :
    commonIndent (style.shownLines content) = Text.byteSize style.memberIndent := by
  have hIndent := isBlank_memberIndent hStyle
  apply Nat.le_antisymm
  · -- a line with the least indentation has none left behind that of members
    obtain ⟨other, hOther, rfl⟩ := List.mem_map.mp hMem
    rw [(trimStart_indented hStyle hOther).1] at hBlank
    obtain ⟨least, hLeast, hLeastBlank, hWidth⟩ := exists_least_indentWidth hOther hBlank
    have hShown : style.indented (commonIndent content.lines) least =
        style.memberIndent ++ least.dropWhile Text.isBlank := by
      have hDrop := dropBytes?_append (least.takeWhile Text.isBlank) (least.dropWhile Text.isBlank)
      rw [List.takeWhile_append_dropWhile] at hDrop
      change Text.dropBytes? (indentWidth least) least = _ at hDrop
      unfold indented
      rw [hLeastBlank, if_neg (by decide), ← hWidth, hDrop, Option.getD_some]
    have hHere := commonIndent_le (List.mem_map_of_mem (f := style.indented _) hLeast)
      ((trimStart_indented hStyle hLeast).1.trans hLeastBlank)
    rw [hShown, indentWidth_append hIndent] at hHere
    have hNone : indentWidth (least.dropWhile Text.isBlank) = 0 := by
      have hTake : (least.dropWhile Text.isBlank).takeWhile Text.isBlank = [] := by
        cases hRest : least.dropWhile Text.isBlank with
        | nil => rfl
        | cons c rest =>
          have hc := List.head?_dropWhile_not Text.isBlank least
          rw [hRest] at hc
          exact List.takeWhile_cons_of_neg (by simpa using hc)
      unfold indentWidth
      rw [hTake]
      rfl
    rw [hNone, Nat.add_zero] at hHere
    exact hHere
  · obtain ⟨least, hLeast, hLeastBlank, hWidth⟩ := exists_least_indentWidth hMem hBlank
    rcases mem_shownLines hLeast with rfl | ⟨front, rest, -, -, -, rfl⟩
    · cases hLeastBlank
    · rw [← hWidth, indentWidth_append hIndent]
      exact Nat.le_add_right _ _

/-- Lines that have the indentation of members are shown as they are. -/
theorem map_indented_shownLines (content : Text) :
    (style.shownLines content).map (style.indented (commonIndent (style.shownLines content))) =
      style.shownLines content := by
  conv_rhs => rw [← List.map_id (style.shownLines content)]
  refine List.map_congr_left fun line hMem => ?_
  rcases mem_shownLines hMem with rfl | ⟨front, rest, -, -, hRest, rfl⟩
  · rfl
  · have hBlank : Text.isBlankText (style.memberIndent ++ rest) = false := by
      rw [Text.isBlankText_append, hRest, Bool.and_false]
    unfold indented
    rw [hBlank, if_neg (by decide), commonIndent_shownLines hStyle hMem hBlank,
      dropBytes?_append, Option.getD_some]
    rfl

/-- Lines that do not end with a carriage return are read back as they were written. -/
theorem lines_shown {content : Text} (hReturn : ∀ line ∈ content.lines, line.getLast? ≠ some '\r') :
    (style.shown content).lines = style.shownLines content := by
  rw [shown, Text.lines_ofLines fun _ hMem => newline_not_mem_shownLines hStyle hMem]
  conv_rhs => rw [← List.map_id (style.shownLines content)]
  refine List.map_congr_left fun line hMem => ?_
  rcases Text.stripTerminator_concat_or line with hSame | hStripped
  · exact hSame
  · -- a line that is written ends as the line that it comes from
    exfalso
    have hLast : line.getLast? = some '\r' := by
      rw [hStripped, List.getLast?_concat]
    rcases mem_shownLines hMem with rfl | ⟨front, rest, hLine, -, hRest, rfl⟩
    · cases hLast
    · have hSome : rest ≠ [] := by
        rintro rfl
        cases hRest
      apply hReturn _ hLine
      rw [List.getLast?_append_of_ne_nil _ hSome] at hLast ⊢
      exact hLast

/-- What is read back of a section is shown as it was. -/
theorem shownLines_shown {content : Text}
    (hReturn : ∀ line ∈ content.lines, line.getLast? ≠ some '\r') :
    style.shownLines (style.shown content) = style.shownLines content := by
  unfold shownLines
  rw [lines_shown hStyle hReturn]
  exact map_indented_shownLines hStyle content

/-- A section that is read back is written as it was. -/
theorem writeSection_shown {content : Text}
    (hReturn : ∀ line ∈ content.lines, line.getLast? ≠ some '\r') :
    style.writeSection (style.shown content) = style.writeSection content := by
  rw [writeSection_eq, writeSection_eq]
  unfold sectionBlock
  rw [shownLines_shown hStyle hReturn]

end

/-! ## Marker lines -/

section

variable {style : Style}

theorem markerOf?_eq_none_iff {line : Text} : style.markerOf? line = none ↔
    Text.contains line style.startMarker = false ∧ Text.contains line style.endMarker = false := by
  unfold markerOf?
  cases Text.contains line style.startMarker <;> cases Text.contains line style.endMarker <;> simp

theorem markersFrom_append (line position : Nat) (front back : List Text) :
    style.markersFrom line position (front ++ back) =
      style.markersFrom line position front ++
        style.markersFrom (line + front.length) (position + front.flatten.length) back := by
  induction front generalizing line position with
  | nil => rfl
  | cons chunk rest ih =>
    have hLine : line + (chunk :: rest).length = line + 1 + rest.length := by
      rw [List.length_cons]
      omega
    have hPosition : position + (chunk :: rest).flatten.length =
        position + chunk.length + rest.flatten.length := by
      rw [List.flatten_cons, List.length_append]
      omega
    rw [List.cons_append, markersFrom, markersFrom, ih, hLine, hPosition]
    cases style.markerOf? chunk with
    | none => rfl
    | some kind => rfl

theorem markersFrom_eq_nil {chunks : List Text} (h : ∀ chunk ∈ chunks, style.markerOf? chunk = none)
    (line position : Nat) : style.markersFrom line position chunks = [] := by
  induction chunks generalizing line position with
  | nil => rfl
  | cons chunk rest ih =>
    rw [markersFrom, h chunk List.mem_cons_self]
    exact ih (fun other hMem => h other (List.mem_cons_of_mem _ hMem)) _ _

/-- The marker lines that a style writes are told apart. -/
structure TellsMarkers (style : Style) : Prop where
  startLine : style.markerOf? (style.markerLine style.startMarker) = some .start
  endLine : style.markerOf? (style.markerLine style.endMarker) = some .finish
  emptyLine : style.markerOf? ['\n'] = none

theorem tellsMarkers_standard : standard.TellsMarkers where
  startLine := by decide
  endLine := by decide
  emptyLine := by decide

theorem endsLine_writeSection (content : Text) : Text.EndsLine (style.writeSection content) := by
  have hText : style.writeSection content =
      Text.ofLines (([] : Text) :: (style.sectionBlock content).lines) := writeSection_eq _ _
  rw [hText]
  exact Text.endsLine_ofLines _

variable (hStyle : style.IsLegible)

include hStyle

/-- Lines without a marker are written without one. -/
theorem markerOf?_shownLines {content line : Text}
    (hContent : ∀ line ∈ content.lines, style.markerOf? line = none)
    (h : line ∈ style.shownLines content) (hEmpty : style.markerOf? ['\n'] = none) :
    style.markerOf? (line ++ ['\n']) = none := by
  rcases mem_shownLines h with rfl | ⟨front, rest, hLine, -, -, rfl⟩
  · exact hEmpty
  · obtain ⟨hStart, hEnd⟩ := markerOf?_eq_none_iff.mp (hContent _ hLine)
    have hNone {marker : Text} (hMarker : IsMark marker)
        (hBefore : Text.contains (front ++ rest) marker = false) :
        Text.contains (style.memberIndent ++ rest ++ ['\n']) marker = false := by
      refine Bool.eq_false_iff.mpr fun hContains => ?_
      have hRest := Text.contains_of_blanks_append (isBlank_memberIndent hStyle) hMarker.1
        (Text.contains_of_concat hMarker.2 hContains)
      rw [Text.contains_append_left front hRest] at hBefore
      cases hBefore
    exact markerOf?_eq_none_iff.mpr ⟨hNone hStyle.startMark hStart, hNone hStyle.endMark hEnd⟩

theorem chunks_writeSection (content : Text) :
    Text.chunks (style.writeSection content) = ['\n'] :: style.markerLine style.startMarker ::
      ((style.shownLines content).map (· ++ ['\n']) ++ [style.markerLine style.endMarker]) := by
  have hLines : ∀ line ∈ ([] : Text) :: (style.sectionBlock content).lines, '\n' ∉ line := by
    intro line hMem
    rcases List.mem_cons.mp hMem with rfl | hMem
    · nofun
    · exact newline_not_mem_sectionBlock hStyle hMem
  have hText : style.writeSection content =
      Text.ofLines (([] : Text) :: (style.sectionBlock content).lines) := writeSection_eq _ _
  rw [hText, Text.chunks_ofLines hLines]
  simp [Block.lines, sectionBlock, markerLine]

variable (hTells : style.TellsMarkers)

include hTells

/-- The marker lines of a section, with its content between them. -/
theorem exists_pair_writeSection {content : Text}
    (hContent : ∀ line ∈ content.lines, style.markerOf? line = none) (line position : Nat) :
    ∃ pair : Marker × Marker,
      style.markersFrom line position (Text.chunks (style.writeSection content)) =
        [pair.1, pair.2] ∧
      pair.1.kind = .start ∧ pair.2.kind = .finish ∧ pair.1.start = position + 1 ∧
      ∀ front back : Text, front.length = position →
        Text.slice (front ++ (style.writeSection content ++ back)) pair.1.stop pair.2.start =
          style.shown content := by
  have hInner : ∀ chunk ∈ (style.shownLines content).map (· ++ ['\n']),
      style.markerOf? chunk = none := by
    intro chunk hMem
    obtain ⟨shown, hShown, rfl⟩ := List.mem_map.mp hMem
    exact markerOf?_shownLines hStyle hContent hShown hTells.emptyLine
  have hFlatten : ((style.shownLines content).map (· ++ ['\n'])).flatten = style.shown content := by
    rw [shown, Text.ofLines, List.flatMap]
  generalize hFirst : position + 1 + (style.markerLine style.startMarker).length = first
  refine ⟨(⟨.start, line + 1, position + 1, first⟩,
    ⟨.finish, line + 1 + 1 + ((style.shownLines content).map (· ++ ['\n'])).length,
      first + (style.shown content).length,
      first + (style.shown content).length + (style.markerLine style.endMarker).length⟩),
    ?_, rfl, rfl, rfl, ?_⟩
  · rw [chunks_writeSection hStyle, markersFrom, hTells.emptyLine]
    dsimp only
    rw [markersFrom, hTells.startLine]
    dsimp only
    rw [markersFrom_append, markersFrom_eq_nil hInner, List.nil_append, hFlatten, markersFrom,
      hTells.endLine, markersFrom, ← hFirst]
    rfl
  · intro front back hFront
    have hText : front ++ (style.writeSection content ++ back) =
        (front ++ '\n' :: style.markerLine style.startMarker) ++
          (style.shown content ++ (style.markerLine style.endMarker ++ back)) := by
      unfold writeSection
      dsimp only
      rw [flatMap_indentLine]
      simp
    have hLength : (front ++ '\n' :: style.markerLine style.startMarker).length = first := by
      rw [List.length_append, List.length_cons, hFront, ← hFirst]
      omega
    rw [hText, ← hLength]
    exact Text.slice_middle _ _ _

/-- The marker lines of sections one behind the other, with their contents between them. -/
theorem exists_pairs_written {contents : List Text}
    (hContents : ∀ content ∈ contents, ∀ line ∈ content.lines, style.markerOf? line = none)
    (line position : Nat) :
    ∃ pairs : List (Marker × Marker),
      style.markersFrom line position (Text.chunks (contents.flatMap style.writeSection)) =
        pairs.flatMap (fun pair => [pair.1, pair.2]) ∧
      (∀ pair ∈ pairs, pair.1.kind = .start ∧ pair.2.kind = .finish ∧ position ≤ pair.1.start ∧
        pair.1.start < position + (contents.flatMap style.writeSection).length) ∧
      ∀ front back : Text, front.length = position →
        pairs.map (fun pair => Text.slice (front ++ (contents.flatMap style.writeSection ++ back))
          pair.1.stop pair.2.start) = contents.map style.shown := by
  induction contents generalizing line position with
  | nil => exact ⟨[], rfl, nofun, fun _ _ _ => rfl⟩
  | cons content rest ih =>
    obtain ⟨pair, hPair, hStart, hFinish, hPosition, hShown⟩ :=
      exists_pair_writeSection hStyle hTells (hContents content List.mem_cons_self) line position
    obtain ⟨pairs, hPairs, hKinds, hRest⟩ := ih
      (fun other hMem => hContents other (List.mem_cons_of_mem _ hMem))
      (line + (Text.chunks (style.writeSection content)).length)
      (position + (style.writeSection content).length)
    have hSome : 1 < (style.writeSection content).length := by
      rw [writeSection_eq]
      simp only [Block.text, Block.lines, Text.ofLines, List.flatMap_cons, List.length_cons,
        List.length_append]
      omega
    refine ⟨pair :: pairs, ?_, ?_, ?_⟩
    · rw [List.flatMap_cons, Text.chunks_append (endsLine_writeSection content),
        markersFrom_append, Text.chunks_flatten, hPair, hPairs]
      rfl
    · intro other hMem
      rw [List.flatMap_cons, List.length_append]
      rcases List.mem_cons.mp hMem with rfl | hIn
      · exact ⟨hStart, hFinish, by omega, by omega⟩
      · obtain ⟨hOtherStart, hOtherFinish, hFirst, hLast⟩ := hKinds other hIn
        exact ⟨hOtherStart, hOtherFinish, by omega, by omega⟩
    · intro front back hFront
      have hBehind := hRest (front ++ style.writeSection content) back (by simp [hFront])
      rw [List.append_assoc] at hBehind
      rw [List.flatMap_cons, List.map_cons, List.map_cons, List.append_assoc, hShown _ _ hFront,
        hBehind]

end

end Style

end XdrBindings.Merge
