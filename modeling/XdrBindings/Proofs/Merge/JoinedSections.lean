import XdrBindings.Proofs.Code.DeclaredTexts
import XdrBindings.Proofs.Merge.SectionLines
import XdrBindings.Proofs.Merge.Survival

/-!
# Sections of texts that are put together

A text that can be read apart holds its sections whatever stands behind it, and what stands behind
it holds those that it holds alone.  Blanks at the ends change nothing, and neither do lines
without classes and markers.  Renaming keeps the lines of classes and markers, if no name begins as
the word of a marker does.

## Main results

* `Style.markedLines_append` — the marker lines of two texts.
* `Style.holdsSections_append_iff` — a text behind one that can be read apart.
* `Style.holdsSections_trimStart`, `Style.holdsSections_trimEnd` — blanks at the ends.
* `Style.holdsSections_join` — texts with empty lines between them.
* `holdsSections_renameAll` — sections under other names.
-/

namespace XdrBindings.Merge

open Code

namespace Style

variable {style : Style} {text : Text}

/-! ## Markers and their lines -/

theorem markerOf?_congr {line other : Text}
    (hStart : Text.contains line style.startMarker = Text.contains other style.startMarker)
    (hEnd : Text.contains line style.endMarker = Text.contains other style.endMarker) :
    style.markerOf? line = style.markerOf? other := by
  unfold markerOf?
  rw [hStart, hEnd]

/-- No part of a text without a marker holds one. -/
theorem markerOf?_of_append {front back : Text}
    (h : style.markerOf? (front ++ (text ++ back)) = none) : style.markerOf? text = none := by
  obtain ⟨hStart, hEnd⟩ := markerOf?_eq_none_iff.mp h
  exact markerOf?_eq_none_iff.mpr
    ⟨Text.contains_eq_false_of_append hStart, Text.contains_eq_false_of_append hEnd⟩

/-- A character that no marker ends with. -/
def EndsNoMarker (style : Style) (c : Char) : Prop :=
  style.startMarker.getLast? ≠ some c ∧ style.endMarker.getLast? ≠ some c

theorem IsLegible.endsNoMarker_newline (h : style.IsLegible) : style.EndsNoMarker '\n' :=
  ⟨fun hLast => h.startMark.2 (List.mem_of_getLast? hLast),
    fun hLast => h.endMark.2 (List.mem_of_getLast? hLast)⟩

theorem endsNoMarker_standard {c : Char} (hc : Text.isBlank c = true) :
    standard.EndsNoMarker c := by
  constructor
  · rintro ⟨⟩
    cases hc
  · rintro ⟨⟩
    cases hc

theorem markerOf?_concat {c : Char} (hc : style.EndsNoMarker c) (line : Text) :
    style.markerOf? (line ++ [c]) = style.markerOf? line := by
  have hSame {marker : Text} (hLast : marker.getLast? ≠ some c) :
      Text.contains (line ++ [c]) marker = Text.contains line marker := by
    rw [Bool.eq_iff_iff]
    constructor
    · exact Text.contains_of_getLast?_ne hLast
    · intro hContains
      obtain ⟨front, back, rfl⟩ := Text.contains_iff.mp hContains
      exact Text.contains_iff.mpr ⟨front, back ++ [c], by simp⟩
  exact markerOf?_congr (hSame hc.1) (hSame hc.2)

section Legible

variable (hStyle : style.IsLegible)

include hStyle

theorem markerOf?_nil : style.markerOf? [] = none := by
  have hNone {marker : Text} (hMarker : IsMark marker) : Text.contains [] marker = false := by
    cases marker with
    | nil => cases hMarker.1
    | cons c rest => rfl
  exact markerOf?_eq_none_iff.mpr ⟨hNone hStyle.startMark, hNone hStyle.endMark⟩

/-- The marker lines of a text, by its lines without what ends them. -/
theorem markedLines_eq (text : Text) :
    style.markedLines text = numbered 1 (text.pieces.map style.markerOf?) := by
  obtain ⟨rows, last, hPieces, hText, hRows⟩ := Text.exists_rows text
  have hNoRow : ∀ row ∈ rows, '\n' ∉ row := fun row hRow =>
    hRows row (List.mem_append_left _ hRow)
  have hNoLast := hRows last (List.mem_append_right _ List.mem_cons_self)
  have hSame : (rows.map (· ++ ['\n'])).map style.markerOf? = rows.map style.markerOf? := by
    rw [List.map_map]
    exact List.map_congr_left fun row _ => markerOf?_concat hStyle.endsNoMarker_newline row
  have hLast (line : Nat) :
      numbered line (last.chunks.map style.markerOf?) = numbered line [style.markerOf? last] := by
    by_cases hNil : last = []
    · rw [hNil, markerOf?_nil hStyle]
      rfl
    · rw [Text.chunks_of_not_mem hNoLast hNil]
      rfl
  have hChunks : text.chunks = rows.map (· ++ ['\n']) ++ last.chunks := by
    rw [← Text.chunks_ofLines hNoRow, ← Text.chunks_append (Text.endsLine_ofLines rows), ← hText]
  rw [markedLines, markers, map_markersFrom, hChunks, List.map_append, hSame, numbered_append,
    hLast, hPieces, List.map_append, numbered_append]
  rfl

/-- The marker lines of whole lines. -/
theorem markedLines_of_endsLine {text : Text} (h : Text.EndsLine text) :
    style.markedLines text = numbered 1 (text.rows.map style.markerOf?) := by
  have hPieces : Text.pieces (text ++ []) = _ := Text.pieces_append h
  have hLast : ([[]] : List Text).map style.markerOf? = [none] := by
    rw [List.map_singleton, markerOf?_nil hStyle]
  rw [List.append_nil] at hPieces
  rw [markedLines_eq hStyle, hPieces, List.map_append, numbered_append]
  change _ ++ numbered _ (([[]] : List Text).map style.markerOf?) = _
  rw [hLast]
  exact List.append_nil _

theorem markedLines_append {front : Text} (hFront : Text.EndsLine front) (back : Text) :
    style.markedLines (front ++ back) = style.markedLines front ++
      (style.markedLines back).map (Prod.map id (· + front.count '\n')) := by
  rw [markedLines_of_endsLine hStyle hFront, markedLines_eq hStyle, markedLines_eq hStyle,
    Text.pieces_append hFront, List.map_append, numbered_append, List.length_map,
    Text.length_rows, numbered_add]

theorem markedLines_concat {c : Char} (hc : style.EndsNoMarker c) (text : Text) :
    style.markedLines (text ++ [c]) = style.markedLines text := by
  rw [markedLines_eq hStyle, markedLines_eq hStyle]
  by_cases hLine : c = '\n'
  · have hNone : (Text.pieces []).map style.markerOf? = [none] := by
      show [style.markerOf? []] = _
      rw [markerOf?_nil hStyle]
    rw [hLine, Text.pieces_newline, List.map_append, numbered_append, hNone]
    exact List.append_nil _
  · obtain ⟨rows, last, hPieces, hText, hRows⟩ := Text.exists_rows text
    have hLast : '\n' ∉ last ++ [c] := by
      have hNot := hRows last (List.mem_append_right _ List.mem_cons_self)
      simp [hNot, Ne.symm hLine]
    have hRow : ∀ row ∈ rows, '\n' ∉ row := fun row hMem =>
      hRows row (List.mem_append_left _ hMem)
    rw [hPieces, hText, List.append_assoc, Text.pieces_ofLines_append hRow,
      Text.pieces_of_not_mem hLast, List.map_append, List.map_append, List.map_singleton,
      List.map_singleton, markerOf?_concat hc]

/-- Sections of a text behind one that can be read apart. -/
theorem holdsSections_append_iff {front : Text} (h : IsApart front) (back : Text) :
    style.HoldsSections (front ++ back) ↔
      style.HoldsSections front ∧ style.HoldsSections back := by
  have hUpper : ∀ block ∈ blockLines front, block.2 ≤ front.count '\n' := by
    intro block hBlock
    obtain ⟨site, hSite, rfl⟩ := List.mem_map.mp hBlock
    exact Text.lineOf_le_count h.line (closing_lt_of_mem_sitesOf hSite)
  have hLower : ∀ block ∈ (blockLines back).map
      (Prod.map (· + front.count '\n') (· + front.count '\n')), front.count '\n' < block.1 := by
    intro block hBlock
    obtain ⟨_, hBack, rfl⟩ := List.mem_map.mp hBlock
    obtain ⟨site, -, rfl⟩ := List.mem_map.mp hBack
    show _ < back.lineOf site.opening + _
    rw [Text.lineOf]
    omega
  have hAbove : ∀ entry ∈ style.markedLines front, entry.2 ≤ front.count '\n' := by
    intro entry hEntry
    rw [markedLines_of_endsLine hStyle h.line] at hEntry
    have hBounds := bounds_of_mem_numbered hEntry
    rw [List.length_map, Text.length_rows] at hBounds
    omega
  have hBelow : ∀ entry ∈ (style.markedLines back).map (Prod.map id (· + front.count '\n')),
      front.count '\n' < entry.2 := by
    intro entry hEntry
    obtain ⟨other, hOther, rfl⟩ := List.mem_map.mp hEntry
    rw [markedLines_eq hStyle] at hOther
    have hBounds := bounds_of_mem_numbered hOther
    show _ < other.2 + _
    omega
  rw [holdsSections_iff, holdsSections_iff, holdsSections_iff, (h.search_append back).2,
    Walk.isOutside_shift, h.isOutside_walkBehind, blockLines_append h,
    markedLines_append hStyle h.line]
  constructor
  · rintro ⟨hBack, hAll⟩
    obtain ⟨hFront, hBehind⟩ := hAll.of_append hUpper hLower hAbove hBelow
    exact ⟨⟨rfl, hFront⟩, hBack, (PairUpWithin.map_add_iff _).mp hBehind⟩
  · rintro ⟨⟨-, hFront⟩, hBack, hBehind⟩
    refine ⟨hBack, (hFront.mono fun block hBlock => List.mem_append_left _ hBlock).append ?_⟩
    exact ((PairUpWithin.map_add_iff _).mpr hBehind).mono fun block hBlock =>
      List.mem_append_right _ hBlock

/-- No piece of a text without a marker is a marker line. -/
theorem markerOf?_of_mem_pieces {text : Text} (h : style.markerOf? text = none) :
    ∀ piece ∈ text.pieces, style.markerOf? piece = none := by
  intro piece hPiece
  obtain ⟨first, last, hSplit⟩ := List.append_of_mem hPiece
  have hText : text ++ ['\n'] = Text.ofLines first ++ (piece ++ ('\n' :: Text.ofLines last)) := by
    rw [← Text.ofLines_pieces, hSplit]
    simp [Text.ofLines]
  rw [← markerOf?_concat hStyle.endsNoMarker_newline, hText] at h
  exact markerOf?_of_append h

theorem numbered_pieces_eq_nil {text : Text} (h : style.markerOf? text = none) (line : Nat) :
    numbered line (text.pieces.map style.markerOf?) = [] := by
  refine numbered_eq_nil (fun kind hKind => ?_) line
  obtain ⟨piece, hPiece, rfl⟩ := List.mem_map.mp hKind
  exact markerOf?_of_mem_pieces hStyle h piece hPiece

/-- A text without markers holds no sections, and is read if no class of it is left open. -/
theorem holdsSections_of_markerOf?_eq_none {text : Text} (h : style.markerOf? text = none)
    (hWalk : (walkBehind text).form.isOutside = true) : style.HoldsSections text := by
  rw [holdsSections_iff, markedLines_eq hStyle, numbered_pieces_eq_nil hStyle h]
  exact ⟨hWalk, .nil⟩

theorem holdsSections_concat {c : Char} (hc : Text.isBlank c = true) (hEnds : style.EndsNoMarker c)
    (text : Text) : style.HoldsSections (text ++ [c]) ↔ style.HoldsSections text := by
  have hBlank : ∀ d ∈ [c], Text.isBlank d = true := List.forall_mem_singleton.mpr hc
  rw [holdsSections_iff, holdsSections_iff, (search_append_blanks hBlank text).2,
    blockLines_append_blanks hBlank, markedLines_concat hStyle hEnds]

/-- An empty line more or less at the end. -/
theorem holdsSections_append_newline (text : Text) :
    style.HoldsSections (text ++ ['\n']) ↔ style.HoldsSections text :=
  holdsSections_concat hStyle (by decide) hStyle.endsNoMarker_newline text

theorem holdsSections_append_emptyLine (text : Text) :
    style.HoldsSections (text ++ ['\n', '\n']) ↔ style.HoldsSections text := by
  rw [List.append_cons, holdsSections_append_newline hStyle, holdsSections_append_newline hStyle]

theorem markedLines_blank_cons {c : Char} (hc : Text.isBlank c = true) (hLine : c ≠ '\n')
    (text : Text) : style.markedLines (c :: text) = style.markedLines text := by
  have hNot : '\n' ∉ [c] := by simpa using hLine.symm
  obtain ⟨first, others, hPieces, hBoth⟩ := Text.exists_pieces_append hNot text
  have hSame {marker : Text} (hMarker : IsMark marker) :
      Text.contains (c :: first) marker = Text.contains first marker := by
    rw [Bool.eq_iff_iff]
    refine ⟨@Text.contains_of_blanks_append [c] _ _ ?_ hMarker.1,
      Text.contains_append_left [c]⟩
    exact List.forall_mem_singleton.mpr hc
  have hFirst : style.markerOf? (c :: first) = style.markerOf? first :=
    markerOf?_congr (hSame hStyle.startMark) (hSame hStyle.endMark)
  change Text.pieces (c :: text) = (c :: first) :: others at hBoth
  rw [markedLines_eq hStyle, markedLines_eq hStyle, hBoth, hPieces, List.map_cons, hFirst]
  rfl

theorem holdsSections_blank_cons {c : Char} (hc : Text.isBlank c = true) (text : Text) :
    style.HoldsSections (c :: text) ↔ style.HoldsSections text := by
  by_cases hLine : c = '\n'
  · subst hLine
    have hApart : IsApart ['\n'] := by decide
    have hNone : style.HoldsSections ['\n'] :=
      (holdsSections_append_newline hStyle []).mpr
        (holdsSections_of_markerOf?_eq_none hStyle (markerOf?_nil hStyle) rfl)
    exact (holdsSections_append_iff hStyle hApart text).trans (and_iff_right hNone)
  · have hBlanks : ∀ d ∈ [c], Text.isBlank d = true := List.forall_mem_singleton.mpr hc
    have hCount : [c].count '\n' = 0 := by simp [hLine]
    have hBlocks : blockLines ([c] ++ text) = blockLines text := by
      rw [blockLines_blanks_append hBlanks, hCount]
      exact List.map_id _
    change style.HoldsSections ([c] ++ text) ↔ _
    rw [holdsSections_iff, holdsSections_iff, (search_blanks_append hBlanks text).2,
      Walk.isOutside_shift, hBlocks, List.singleton_append, markedLines_blank_cons hStyle hc hLine]

theorem holdsSections_trimStart (text : Text) :
    style.HoldsSections (Text.trimStart text) ↔ style.HoldsSections text := by
  induction text with
  | nil => exact Iff.rfl
  | cons c rest ih =>
    unfold Text.trimStart at ih ⊢
    rw [List.dropWhile_cons]
    split
    · rename_i hc
      rw [ih, holdsSections_blank_cons hStyle hc]
    · exact Iff.rfl

theorem holdsSections_trimEnd (hEnds : ∀ c, Text.isBlank c = true → style.EndsNoMarker c)
    (text : Text) : style.HoldsSections (Text.trimEnd text) ↔ style.HoldsSections text := by
  obtain ⟨blanks, hText, hBlanks⟩ := Text.exists_trimEnd text
  conv_rhs => rw [hText]
  clear hText
  generalize Text.trimEnd text = front
  induction blanks using List.reverseRecOn with
  | nil => rw [List.append_nil]
  | append_singleton blanks c ih =>
    rw [List.forall_mem_append, List.forall_mem_singleton] at hBlanks
    rw [← List.append_assoc, holdsSections_concat hStyle hBlanks.2 (hEnds c hBlanks.2)]
    exact ih hBlanks.1

/-- The sections of texts that can be read apart stand in classes of the joined text. -/
theorem holdsSections_join {texts : List Text}
    (h : ∀ text ∈ texts, IsApart (text ++ ['\n', '\n']) ∧ style.HoldsSections text) :
    style.HoldsSections (Text.join ['\n', '\n'] texts) := by
  have hNil := holdsSections_of_markerOf?_eq_none hStyle (markerOf?_nil hStyle) rfl
  induction texts with
  | nil => exact hNil
  | cons text rest ih =>
    obtain ⟨⟨hApart, hText⟩, hRest⟩ := List.forall_mem_cons.mp h
    cases rest with
    | nil =>
      have hJoin : Text.join ['\n', '\n'] [text] = text := by simp [Text.join]
      rwa [hJoin]
    | cons next rest =>
      have hFront := (holdsSections_append_emptyLine hStyle text).mpr hText
      rw [Text.join_cons_cons, ← List.append_assoc]
      exact (holdsSections_append_iff hStyle hApart _).mpr ⟨hFront, ih hRest⟩

/-- Lines of their own without classes and markers can be left out. -/
theorem holdsSections_ofLines_append {lines : List Text}
    (h : ∀ line ∈ lines, IsAside (line ++ ['\n']) ∧ style.markerOf? line = none) {back : Text} :
    style.HoldsSections (Text.ofLines lines ++ back) ↔ style.HoldsSections back := by
  induction lines with
  | nil => exact Iff.rfl
  | cons line rest ih =>
    obtain ⟨⟨hAside, hNone⟩, hRest⟩ := List.forall_mem_cons.mp h
    have hText : Text.ofLines (line :: rest) ++ back =
        (line ++ ['\n']) ++ (Text.ofLines rest ++ back) := by
      simp [Text.ofLines]
    have hLine : style.HoldsSections (line ++ ['\n']) :=
      holdsSections_of_markerOf?_eq_none hStyle
        ((markerOf?_concat hStyle.endsNoMarker_newline line).trans hNone)
        hAside.isOutside_walkBehind
    rw [hText, holdsSections_append_iff hStyle hAside.toIsApart, ih hRest]
    exact and_iff_right hLine

end Legible

end Style

/-! ## Sections of renamed texts -/

section Renamed

variable {old new : Text}

variable (hOld : IsPlainName old) (hNew : IsPlainName new)
  (hStays : ∀ word ∈ Stages.markerWords,
    Text.startsWith old word = false ∧ Text.startsWith new word = false)

include hOld hNew hStays

/-- Renaming neither takes a marker away nor makes one. -/
theorem markerOf?_renamed {line other : Text} (h : Renamed old new none line other) :
    Style.standard.markerOf? other = Style.standard.markerOf? line := by
  have hOldName : IsName old := ⟨hOld.ne_nil, hOld.isName⟩
  have hNewName : IsName new := ⟨hNew.ne_nil, hNew.isName⟩
  have hSame {word : Text} (hWord : word ∈ Stages.markerWords) :
      Text.contains other ("// ".toList ++ word) = Text.contains line ("// ".toList ++ word) := by
    have hChars : ∀ word ∈ Stages.markerWords, ∀ d ∈ word, Text.isWord d = true := by decide
    obtain ⟨hOldStarts, hNewStarts⟩ := hStays word hWord
    have hForth : KeepsMarker [(old, new)] ("// ".toList ++ word) := keepsMarker_of_startsWith
      (List.forall_mem_singleton.mpr ⟨hOldName, hNewName⟩) (hChars word hWord)
      (List.forall_mem_singleton.mpr hOldStarts)
    have hBack : KeepsMarker [(new, old)] ("// ".toList ++ word) := keepsMarker_of_startsWith
      (List.forall_mem_singleton.mpr ⟨hNewName, hOldName⟩) (hChars word hWord)
      (List.forall_mem_singleton.mpr hNewStarts)
    rw [Bool.eq_iff_iff]
    exact ⟨hBack _ _ (.cons (h.symm hOld.toIsPlainWord hNew.toIsPlainWord) .nil),
      hForth _ _ (.cons h .nil)⟩
  exact Style.markerOf?_congr (hSame List.mem_cons_self)
    (hSame (List.mem_cons_of_mem _ List.mem_cons_self))

/-- The sections of a renamed text. -/
theorem holdsSections_renameWord {text : Text} (hWhole : Reader.start.areWhole text = true) :
    Style.standard.HoldsSections (renameWord old new text) ↔
      Style.standard.HoldsSections text := by
  have hStyle := Style.isPlain_standard.isLegible
  have hOutside (form : Form) : (form.map (renamedName old new)).isOutside = form.isOutside := by
    cases form <;> rfl
  have hBlocks : blockLines (renameWord old new text) = blockLines text := by
    rw [blockLines_eq, lineSites_renameWord hOld hNew hWhole, List.map_map, blockLines_eq]
    rfl
  have hNames : AreNames [(old, new)] :=
    List.forall_mem_singleton.mpr ⟨⟨hOld.ne_nil, hOld.isName⟩, hNew.ne_nil, hNew.isName⟩
  have hAll : RenamedAll [(old, new)] text (renameWord old new text) :=
    .cons (renamed_renameWord hOld.ne_nil text) .nil
  have hKinds : (renameWord old new text).pieces.map Style.standard.markerOf? =
      text.pieces.map Style.standard.markerOf? := by
    refine map_eq_of_renamed (fun line other hLine => ?_) (hAll.pieces hNames)
    cases hLine with
    | cons hFirst hRest =>
      cases hRest
      exact markerOf?_renamed hOld hNew hStays hFirst
  rw [Style.holdsSections_iff, Style.holdsSections_iff, form_walkBehind_renameWord hOld hNew hWhole,
    hOutside, hBlocks, Style.markedLines_eq hStyle, Style.markedLines_eq hStyle, hKinds]

end Renamed

/-- Sections stand in their classes under other names. -/
theorem holdsSections_renameAll {renames : List (Text × Text)}
    (hPlain : ∀ rename ∈ renames, IsPlainName rename.1 ∧ IsPlainName rename.2)
    (hStays : ∀ rename ∈ renames, ∀ word ∈ Stages.markerWords,
      Text.startsWith rename.1 word = false ∧ Text.startsWith rename.2 word = false)
    {text : Text} (hWhole : Reader.start.areWhole text = true) :
    Style.standard.HoldsSections (renameAll renames text) ↔
      Style.standard.HoldsSections text := by
  induction renames generalizing text with
  | nil => exact Iff.rfl
  | cons rename rest ih =>
    obtain ⟨⟨hOld, hNew⟩, hRest⟩ := List.forall_mem_cons.mp hPlain
    obtain ⟨hHere, hBehind⟩ := List.forall_mem_cons.mp hStays
    obtain ⟨-, hAgain⟩ := outline_renameWord hOld hNew hWhole
    exact (ih hRest hBehind hAgain).trans (holdsSections_renameWord hOld hNew hHere hWhole)

end XdrBindings.Merge
