import XdrBindings.Proofs.Merge.JoinedSections

/-!
# Sections that are spliced

A generated text without markers holds the sections that are spliced into its classes.  Each body
is either left as it was, or its markers are those of the sections at its end, in front of the
line of the closing brace.

## Main results

* `pairUpWithin_written` — sections that are written pair up where they stand.
* `holdsSections_assembled` — sections in the bodies of parts stand in classes.
* `holdsWritten_bodyWithSections` — the bodies that a merge writes.
-/

namespace XdrBindings.Merge

open Code

/-! ## Sections in parts -/

section

variable {style : Style} (hStyle : style.IsLegible) (hTells : style.TellsMarkers)
  (hBraces : ∀ c ∈ ['{', '}'], c ∉ style.startMarker ∧ c ∉ style.endMarker)

/-- A text without markers, or one with written sections below lines without them. -/
def Style.HoldsWritten (style : Style) (body : Text) : Prop :=
  style.markerOf? body = none ∨ ∃ (upper : Text) (contents : List Text),
    body = upper ++ '\n' :: contents.flatMap style.writeSection ∧
    style.markerOf? upper = none ∧
    ∀ content ∈ contents, ∀ line ∈ content.lines, style.markerOf? line = none

include hStyle

theorem markerOf?_append_cons {c : Char} (hStart : c ∉ style.startMarker)
    (hEnd : c ∉ style.endMarker) {front back : Text} (hFront : style.markerOf? front = none)
    (hBack : style.markerOf? back = none) : style.markerOf? (front ++ c :: back) = none := by
  have hNone {marker : Text} (hMarker : IsMark marker) (hc : c ∉ marker)
      (hFront : Text.contains front marker = false) (hBack : Text.contains back marker = false) :
      Text.contains (front ++ c :: back) marker = false := by
    have hSome : marker ≠ [] := by
      rintro rfl
      cases hMarker.1
    refine Bool.eq_false_iff.mpr fun hContains => ?_
    have hPos := Text.occurrences_pos hSome hContains
    rw [Text.occurrences_append_cons hSome hc, Text.occurrences_eq_zero hFront,
      Text.occurrences_eq_zero hBack] at hPos
    cases hPos
  obtain ⟨hFrontStart, hFrontEnd⟩ := Style.markerOf?_eq_none_iff.mp hFront
  obtain ⟨hBackStart, hBackEnd⟩ := Style.markerOf?_eq_none_iff.mp hBack
  exact Style.markerOf?_eq_none_iff.mpr ⟨hNone hStyle.startMark hStart hFrontStart hBackStart,
    hNone hStyle.endMark hEnd hFrontEnd hBackEnd⟩

omit hStyle in
theorem numbered_chunks_eq_nil {text : Text} (h : style.markerOf? text = none) (line : Nat) :
    numbered line (text.chunks.map style.markerOf?) = [] := by
  refine numbered_eq_nil (fun kind hKind => ?_) line
  obtain ⟨chunk, hChunk, rfl⟩ := List.mem_map.mp hKind
  obtain ⟨first, last, hSplit⟩ := List.append_of_mem hChunk
  have hText : text = first.flatten ++ (chunk ++ last.flatten) := by
    rw [← List.flatten_cons, ← List.flatten_append, ← hSplit, Text.chunks_flatten]
  exact Style.markerOf?_of_append (hText ▸ h)

include hTells in
/-- Written sections pair up in a block around them. -/
theorem pairUpWithin_written {contents : List Text}
    (hContents : ∀ content ∈ contents, ∀ line ∈ content.lines, style.markerOf? line = none)
    {blocks : List (Nat × Nat)} {block : Nat × Nat} (hBlock : block ∈ blocks) {line : Nat}
    (hFirst : block.1 < line)
    (hLast : line + (Text.chunks (contents.flatMap style.writeSection)).length ≤ block.2) :
    PairUpWithin blocks (numbered line
      ((Text.chunks (contents.flatMap style.writeSection)).map style.markerOf?)) := by
  obtain ⟨pairs, hPairs, hKinds, -⟩ := Style.exists_pairs_written hStyle hTells hContents line 0
  have hMarked := style.map_markersFrom line 0 (Text.chunks (contents.flatMap style.writeSection))
  rw [← hMarked]
  refine PairUpWithin.iff_exists_pairs.mpr ⟨pairs, hPairs, fun pair hPair => ?_⟩
  obtain ⟨hStart, hFinish, -⟩ := hKinds pair hPair
  have hBounds (marker : Marker) (hMem : marker ∈ [pair.1, pair.2]) : line ≤ marker.line ∧
      marker.line < line + (Text.chunks (contents.flatMap style.writeSection)).length := by
    have hEntry : (marker.kind, marker.line) ∈ numbered line
        ((Text.chunks (contents.flatMap style.writeSection)).map style.markerOf?) := by
      rw [← hMarked, hPairs]
      exact List.mem_map_of_mem (List.mem_flatMap.mpr ⟨pair, hPair, hMem⟩)
    have hWithin := bounds_of_mem_numbered hEntry
    rwa [List.length_map] at hWithin
  have hOne := hBounds pair.1 (by simp)
  have hTwo := hBounds pair.2 (by simp)
  exact ⟨⟨hStart, hFinish⟩, block, hBlock, by omega, by omega⟩

include hTells hBraces

/-- The lines of a block, up to the one that its closing brace is on, with the sections that are
written into it; the marker lines are those of the sections. -/
theorem Style.HoldsWritten.exists_split {body : Text} (hBody : style.HoldsWritten body)
    {above : Text} (hAbove : style.markerOf? above = none) (line : Nat) :
    ∃ upper lower, above ++ '{' :: body ++ ['}'] = upper ++ lower ∧ Text.EndsLine upper ∧
      (∀ more, style.markerOf? more = none → style.markerOf? (lower ++ more) = none) ∧
      PairUpWithin [(line + above.count '\n', line + above.count '\n' + body.count '\n')]
        (numbered line (upper.chunks.map style.markerOf?)) := by
  obtain ⟨hOpenStart, hOpenEnd⟩ := hBraces '{' (by decide)
  obtain ⟨hCloseStart, hCloseEnd⟩ := hBraces '}' (by decide)
  rcases hBody with hNone | ⟨inner, contents, hBody, hNone, hContents⟩
  · -- no line of the block is a marker line
    refine ⟨[], _, rfl, nofun, fun more hMore => ?_, .nil⟩
    have hBlock := markerOf?_append_cons hStyle hOpenStart hOpenEnd hAbove hNone
    have hBoth := markerOf?_append_cons hStyle hCloseStart hCloseEnd hBlock hMore
    rwa [List.append_cons] at hBoth
  · -- the lines above the sections hold no marker
    obtain ⟨front, hFront⟩ : ∃ front, front = above ++ '{' :: (inner ++ ['\n']) := ⟨_, rfl⟩
    obtain ⟨written, hWritten⟩ : ∃ written, written = contents.flatMap style.writeSection :=
      ⟨_, rfl⟩
    have hFrontNone : style.markerOf? front = none := by
      rw [hFront]
      exact markerOf?_append_cons hStyle hOpenStart hOpenEnd hAbove
        ((Style.markerOf?_concat hStyle.endsNoMarker_newline inner).trans hNone)
    have hFrontLine : Text.EndsLine front := by
      have hText : front = (above ++ '{' :: inner) ++ ['\n'] := by
        rw [hFront]
        simp
      rw [hText]
      exact Text.endsLine_concat _
    have hWrittenLine : Text.EndsLine written :=
      hWritten ▸ Text.endsLine_flatMap fun content _ => Style.endsLine_writeSection content
    have hFrontCount : front.count '\n' = above.count '\n' + inner.count '\n' + 1 := by
      rw [hFront]
      simp
      omega
    have hBodyCount : body.count '\n' = inner.count '\n' + 1 + written.count '\n' := by
      rw [hBody, hWritten]
      simp
      omega
    have hSections := pairUpWithin_written hStyle hTells hContents
      (List.mem_singleton_self (line + above.count '\n', line + above.count '\n' +
        body.count '\n')) (show line + above.count '\n' < line + front.count '\n' by omega) (by
      rw [← hWritten, Text.length_chunks_of_endsLine hWrittenLine]
      omega)
    refine ⟨front ++ written, ['}'], ?_, hFrontLine.append hWrittenLine, fun more hMore =>
      markerOf?_append_cons hStyle hCloseStart hCloseEnd (Style.markerOf?_nil hStyle) hMore, ?_⟩
    · rw [hBody, hFront, hWritten]
      simp
    · rw [Text.chunks_append hFrontLine, List.map_append, numbered_append,
        numbered_chunks_eq_nil hFrontNone, List.nil_append, List.length_map,
        Text.length_chunks_of_endsLine hFrontLine, hWritten]
      exact hSections

/-- The marker lines of parts behind a text on the line that the first one begins on. -/
theorem pairUpWithin_assembled {parts : List ClassPart} {tail : Text}
    (hFronts : ∀ part ∈ parts, style.markerOf? part.front = none)
    (hBodies : ∀ part ∈ parts, style.HoldsWritten part.body)
    (hTail : style.markerOf? tail = none) (above : Text)
    (hAbove : ∀ more, style.markerOf? more = none → style.markerOf? (above ++ more) = none)
    (line : Nat) :
    PairUpWithin (partLines (line + above.count '\n') parts)
      (numbered line ((Text.chunks (above ++ assembled parts tail)).map style.markerOf?)) := by
  induction parts generalizing above line with
  | nil =>
    rw [assembled, numbered_chunks_eq_nil (hAbove tail hTail)]
    exact .nil
  | cons part rest ih =>
    obtain ⟨hFront, hFronts⟩ := List.forall_mem_cons.mp hFronts
    obtain ⟨hBody, hBodies⟩ := List.forall_mem_cons.mp hBodies
    obtain ⟨upper, lower, hSplit, hUpper, hLower, hHere⟩ :=
      hBody.exists_split hStyle hTells hBraces (hAbove part.front hFront) line
    have hBelow := ih hFronts hBodies lower hLower (line + upper.count '\n')
    have hText : above ++ assembled (part :: rest) tail =
        upper ++ (lower ++ assembled rest tail) := by
      rw [← List.append_assoc upper, ← hSplit]
      simp [assembled, ClassPart.text]
    have hCount := congrArg (List.count '\n') hSplit
    have hLine : line + upper.count '\n' + lower.count '\n' =
        line + above.count '\n' + part.front.count '\n' + part.body.count '\n' := by
      have hBrace : ['}'].count '\n' = 0 := rfl
      rw [List.count_append, List.count_append, List.count_append, List.count_append,
        List.count_cons_of_ne (by decide)] at hCount
      omega
    rw [List.count_append, ← Nat.add_assoc] at hHere
    rw [hLine] at hBelow
    rw [hText, Text.chunks_append hUpper, List.map_append, numbered_append, List.length_map,
      Text.length_chunks_of_endsLine hUpper]
    refine (hHere.mono fun block hBlock => ?_).append
      (hBelow.mono fun block hBlock => List.mem_cons_of_mem _ hBlock)
    rw [List.mem_singleton.mp hBlock]
    exact List.mem_cons_self

/-- Sections that are written into bodies stand in classes. -/
theorem holdsSections_assembled {parts : List ClassPart} {tail : Text} (hParts : AreParts parts)
    (hSites : sitesOf tail = []) (hEnd : ∃ depth pending, walkBehind tail = .outside depth pending)
    (hFronts : ∀ part ∈ parts, style.markerOf? part.front = none)
    (hBodies : ∀ part ∈ parts, style.HoldsWritten part.body)
    (hTail : style.markerOf? tail = none) : style.HoldsSections (assembled parts tail) := by
  obtain ⟨depth, pending, hWalk⟩ := (walkBehind_assembled hParts).mpr hEnd
  have hBlocks := blockLines_assembled hParts hSites 0
  have hSame : (blockLines (assembled parts tail)).map (Prod.map (· + 0) (· + 0)) =
      blockLines (assembled parts tail) := List.map_id _
  have hAll := pairUpWithin_assembled hStyle hTells hBraces hFronts hBodies hTail []
    (fun more hMore => hMore) 1
  have hMarked := style.map_markersFrom 1 0 (Text.chunks (assembled parts tail))
  rw [Style.holdsSections_iff, ← hSame, hBlocks, Style.markedLines, Style.markers, hMarked, hWalk]
  exact ⟨rfl, hAll⟩

end

/-! ## The generated classes with their sections -/

/-- No part of a text without a marker holds one. -/
theorem markerOf?_of_assembled {style : Style} {parts : List ClassPart} {tail : Text}
    (h : style.markerOf? (assembled parts tail) = none) :
    (∀ part ∈ parts, style.markerOf? part.front = none ∧ style.markerOf? part.body = none) ∧
      style.markerOf? tail = none := by
  induction parts with
  | nil => exact ⟨nofun, h⟩
  | cons part rest ih =>
    have hFront : assembled (part :: rest) tail =
        [] ++ (part.front ++ ('{' :: part.body ++ '}' :: assembled rest tail)) := by
      simp [assembled, ClassPart.text]
    have hBody : assembled (part :: rest) tail =
        (part.front ++ ['{']) ++ (part.body ++ ('}' :: assembled rest tail)) := by
      simp [assembled, ClassPart.text]
    have hRest : assembled (part :: rest) tail = part.text ++ (assembled rest tail ++ []) := by
      simp [assembled]
    obtain ⟨hParts, hTail⟩ := ih (Style.markerOf?_of_append (hRest ▸ h))
    exact ⟨List.forall_mem_cons.mpr ⟨⟨Style.markerOf?_of_append (hFront ▸ h),
      Style.markerOf?_of_append (hBody ▸ h)⟩, hParts⟩, hTail⟩

/-- What is left of a body without a marker holds none. -/
theorem markerOf?_withoutMethods {style : Style} (hStyle : style.IsLegible)
    (sections : List Section) {body : Text} (h : style.markerOf? body = none) :
    style.markerOf? (Text.trimEnd (withoutMethods sections body)) = none := by
  have hNone {marker : Text} (hMarker : IsMark marker)
      (hBody : Text.contains body marker = false) :
      Text.contains (withoutMethods sections body) marker = false := by
    refine contains_withoutMethods ?_ hMarker.2 sections hBody
    rintro rfl
    cases hMarker.1
  obtain ⟨hStart, hEnd⟩ := Style.markerOf?_eq_none_iff.mp h
  obtain ⟨blanks, hText, -⟩ := Text.exists_trimEnd (withoutMethods sections body)
  apply @Style.markerOf?_of_append _ _ [] blanks
  rw [List.nil_append, ← hText]
  exact Style.markerOf?_eq_none_iff.mpr
    ⟨hNone hStyle.startMark hStart, hNone hStyle.endMark hEnd⟩

/-- A generated body with the sections that are spliced into it. -/
theorem holdsWritten_bodyWithSections {style : Style} (hStyle : style.IsLegible)
    {existing : Text} {file : OldFile} (hFile : OldFile.ofText style existing = .ok file)
    (generated : List ClassDecl) (name : Text) {body : Text} (h : style.markerOf? body = none) :
    style.HoldsWritten (style.bodyWithSections generated file.classes name body) := by
  unfold Style.bodyWithSections
  cases hSource : style.spliceSource? generated file.classes name body with
  | none => exact .inl h
  | some old =>
    refine .inr ⟨_, old.sections.map Section.content, ?_,
      markerOf?_withoutMethods hStyle old.sections h, ?_⟩
    · rw [List.flatMap_map]
      simp [Style.splicedBody]
    · intro content hContent
      obtain ⟨part, hPart, rfl⟩ := List.mem_map.mp hContent
      exact markerOf?_of_mem_lines hFile (Style.mem_of_spliceSource? hSource) hPart

end XdrBindings.Merge
