import XdrBindings.Proofs.Merge.Carried
import XdrBindings.Proofs.Merge.WrittenSections

/-!
# Sections that are read back

A text is read again behind a merge.  The sections that a class has then are those between the
pairs of marker lines that begin within its body.  Where the body is one that sections were
written into, these are the sections as they were written, and a body without a start marker
has none.

## Main results

* `exists_of_pairUp_between` — pairs of marker lines, part by part.
* `OldFile.contents_eq` — the sections of a class by the pairs within its body.
* `contents_of_spliced` — sections are read back as they were written.
* `sections_eq_nil` — a body without a start marker has no sections.
-/

namespace XdrBindings.Merge

open Code

/-! ## Pairs -/

/-- In front of a start, everything is paired up. -/
theorem exists_of_pairUp_append {opened : Option Marker} {front rest : List Marker}
    {marker : Marker} {pairs : List (Marker × Marker)} (hStart : marker.kind = .start)
    (h : pairUp opened (front ++ marker :: rest) = .ok pairs) :
    ∃ first last, pairs = first ++ last ∧ pairUp opened front = .ok first ∧
      pairUp none (marker :: rest) = .ok last := by
  induction front generalizing opened pairs with
  | nil =>
    cases opened with
    | none => exact ⟨[], pairs, rfl, rfl, h⟩
    | some start =>
      rw [List.nil_append, pairUp, hStart] at h
      cases h
  | cons other front ih =>
    cases opened with
    | none =>
      rw [List.cons_append, pairUp] at h
      cases hKind : other.kind with
      | finish =>
        rw [hKind] at h
        cases h
      | start =>
        rw [hKind] at h
        obtain ⟨first, last, hPairs, hFirst, hLast⟩ := ih h
        refine ⟨first, last, hPairs, ?_, hLast⟩
        rw [pairUp, hKind]
        exact hFirst
    | some start =>
      rw [List.cons_append, pairUp] at h
      cases hKind : other.kind with
      | start =>
        rw [hKind] at h
        cases h
      | finish =>
        rw [hKind] at h
        obtain ⟨others, hOthers, hPairs⟩ := bind_eq_ok_iff.mp h
        obtain rfl := Except.ok.inj hPairs
        obtain ⟨first, last, rfl, hFirst, hLast⟩ := ih hOthers
        refine ⟨(start, other) :: first, last, rfl, ?_, hLast⟩
        rw [pairUp, hKind]
        exact bind_eq_ok_iff.mpr ⟨first, hFirst, rfl⟩

theorem exists_of_pairUp_pairs {pairs others : List (Marker × Marker)} {rest : List Marker}
    (hKinds : ∀ pair ∈ pairs, pair.1.kind = .start ∧ pair.2.kind = .finish)
    (h : pairUp none (pairs.flatMap (fun pair => [pair.1, pair.2]) ++ rest) = .ok others) :
    ∃ last, others = pairs ++ last ∧ pairUp none rest = .ok last := by
  rw [pairUp_pairs_append hKinds] at h
  cases hRest : pairUp none rest with
  | error refusal =>
    rw [hRest] at h
    cases h
  | ok last =>
    rw [hRest] at h
    exact ⟨last, (Except.ok.inj h).symm, rfl⟩

/-- Pairs that stand one behind the other among marker lines are paired as such, between what is
paired in front of them and behind them. -/
theorem exists_of_pairUp_between {middle others : List (Marker × Marker)} {front rest : List Marker}
    (hSome : middle ≠ []) (hKinds : ∀ pair ∈ middle, pair.1.kind = .start ∧ pair.2.kind = .finish)
    (h : pairUp none (front ++ (middle.flatMap (fun pair => [pair.1, pair.2]) ++ rest)) =
      .ok others) :
    ∃ first last, others = first ++ (middle ++ last) ∧ pairUp none front = .ok first ∧
      pairUp none rest = .ok last := by
  obtain ⟨pair, pairs, rfl⟩ := List.exists_cons_of_ne_nil hSome
  obtain ⟨first, others, rfl, hFirst, hOthers⟩ :=
    exists_of_pairUp_append (hKinds pair List.mem_cons_self).1 h
  obtain ⟨last, rfl, hLast⟩ := exists_of_pairUp_pairs hKinds hOthers
  exact ⟨first, last, rfl, hFirst, hLast⟩

/-- The first of a pair is one of the marker lines, and a start. -/
theorem start_of_mem_pairUp {markers : List Marker} {pairs : List (Marker × Marker)}
    (h : pairUp none markers = .ok pairs) {pair : Marker × Marker} (hPair : pair ∈ pairs) :
    pair.1 ∈ markers ∧ pair.1.kind = .start := by
  obtain ⟨hStart, -, front, back, hMarkers⟩ := exists_of_mem_pairUp (by rintro _ ⟨⟩) h hPair
  rw [Option.toList_none, List.nil_append] at hMarkers
  exact ⟨by rw [hMarkers]; simp, hStart⟩

theorem Style.pairUp_of_pairs {style : Style} {text : Text} {pairs : List (Marker × Marker)}
    (h : style.pairs text = .ok pairs) : pairUp none (style.markers text) = .ok pairs := by
  unfold Style.pairs at h
  dsimp only at h
  split at h
  · exact h
  · cases h

/-! ## The sections of a class -/

/-- The contents of the sections that are given to a class. -/
def contentsWithin (text : Text) (decl : ClassDecl) (pairs : List (Marker × Marker)) : List Text :=
  (pairs.filter fun pair => decl.encloses pair.1.start).map fun pair =>
    text.slice pair.1.stop pair.2.start

theorem contentsWithin_append (text : Text) (decl : ClassDecl)
    (front back : List (Marker × Marker)) : contentsWithin text decl (front ++ back) =
      contentsWithin text decl front ++ contentsWithin text decl back := by
  unfold contentsWithin
  rw [List.filter_append, List.map_append]

theorem contentsWithin_of_encloses {text : Text} {decl : ClassDecl}
    {pairs : List (Marker × Marker)} (h : ∀ pair ∈ pairs, decl.encloses pair.1.start = true) :
    contentsWithin text decl pairs = pairs.map fun pair => text.slice pair.1.stop pair.2.start := by
  unfold contentsWithin
  rw [List.filter_eq_self.mpr h]

theorem contentsWithin_eq_nil {text : Text} {decl : ClassDecl} {pairs : List (Marker × Marker)}
    (h : ∀ pair ∈ pairs, decl.encloses pair.1.start = false) :
    contentsWithin text decl pairs = [] := by
  unfold contentsWithin
  rw [List.filter_eq_nil_iff.mpr fun pair hPair => Bool.eq_false_iff.mp (h pair hPair)]
  rfl

/-- The sections of a class are what stands between the pairs that begin within its body. -/
theorem OldFile.contents_eq {style : Style} {text : Text} {file : OldFile}
    (h : OldFile.ofText style text = .ok file) :
    ∃ pairs, style.pairs text = .ok pairs ∧ ∀ old ∈ file.classes,
      old.sections.map Section.content = contentsWithin text old.decl pairs := by
  obtain ⟨pairs, found, hPairs, -, -, rfl⟩ := ofText_eq_ok_iff.mp h
  refine ⟨pairs, hPairs, fun old hOld => ?_⟩
  obtain ⟨decl, -, rfl⟩ := List.mem_map.mp hOld
  exact List.map_map

/-- A line without a marker has none without what ends it. -/
theorem Style.markerOf?_stripTerminator {style : Style} {line : Text}
    (h : style.markerOf? (line ++ ['\n']) = none) :
    style.markerOf? (Text.stripTerminator (line ++ ['\n'])) = none := by
  obtain ⟨hStart, hEnd⟩ := Style.markerOf?_eq_none_iff.mp h
  have hNone {marker : Text} (hBefore : Text.contains (line ++ ['\n']) marker = false) :
      Text.contains (Text.stripTerminator (line ++ ['\n'])) marker = false := by
    refine Bool.eq_false_iff.mpr fun hContains => ?_
    obtain ⟨front, back, hText⟩ := Text.contains_iff.mp hContains
    rcases Text.stripTerminator_concat_or line with hSame | hSame
    · rw [hSame] at hText
      rw [hText, Text.contains_iff.mpr ⟨front, back ++ ['\n'], by simp⟩] at hBefore
      cases hBefore
    · rw [hText] at hSame
      rw [hSame, Text.contains_iff.mpr ⟨front, back ++ ['\r', '\n'], by simp⟩] at hBefore
      cases hBefore
  exact Style.markerOf?_eq_none_iff.mpr ⟨hNone hStart, hNone hEnd⟩

/-- No line of a section is a marker line. -/
theorem markerOf?_of_mem_lines {style : Style} {text : Text} {file : OldFile}
    (hFile : OldFile.ofText style text = .ok file) {old : OldClass} (hOld : old ∈ file.classes)
    {part : Section} (hPart : part ∈ old.sections) :
    ∀ line ∈ part.content.lines, style.markerOf? line = none := by
  obtain ⟨pairs, pair, hPairs, hPair, -, hContent⟩ := exists_pair_of_section hFile hOld hPart
  obtain ⟨before, opening, inner, closing, behind, hChunks, -, -, hInner, -, -, -, -, -, hSlice⟩ :=
    exists_of_mem_pairs hPairs hPair
  -- the lines between the two marker lines end with a newline
  have hLine : ∀ chunk ∈ inner, chunk.dropLast ++ ['\n'] = chunk ∧ '\n' ∉ chunk.dropLast := by
    have hCut : Text.chunks text = (before ++ opening :: inner) ++ (closing :: behind) := by
      rw [hChunks]
      simp
    exact fun chunk hMem => Text.dropLast_of_chunks_eq hCut (List.cons_ne_nil _ _) (by simp [hMem])
  have hLines : part.content = Text.ofLines (inner.map List.dropLast) := by
    rw [hContent, hSlice, Text.ofLines_dropLast fun chunk hMem => (hLine chunk hMem).1]
  intro line hMem
  rw [hLines, Text.lines_ofLines, List.map_map] at hMem
  · obtain ⟨chunk, hChunk, rfl⟩ := List.mem_map.mp hMem
    apply Style.markerOf?_stripTerminator
    rw [(hLine chunk hChunk).1]
    exact hInner chunk hChunk
  · intro other hOther
    obtain ⟨chunk, hChunk, rfl⟩ := List.mem_map.mp hOther
    exact (hLine chunk hChunk).2

/-! ## Methods that are taken out -/

section

variable {part : Text} (hSome : part ≠ []) (hLine : '\n' ∉ part)

include hSome hLine

/-- What begins a line is not part of an occurrence that begins above it. -/
theorem occurrences_drop_le {done : Text} (hDone : done.head?.all (· == '\n') = true)
    (count : Nat) (ahead : Text) :
    Text.occurrences part (done.reverse ++ ahead.drop count) ≤
      Text.occurrences part (done.reverse ++ ahead) := by
  have hBack : Text.occurrences part (ahead.drop count) ≤ Text.occurrences part ahead := by
    have hParts := Text.le_occurrences_append part (ahead.take count) (ahead.drop count)
    rw [List.take_append_drop] at hParts
    omega
  cases done with
  | nil => exact hBack
  | cons c done =>
    obtain rfl : c = '\n' := by simpa using hDone
    have hCut (back : Text) : ('\n' :: done).reverse ++ back = done.reverse ++ '\n' :: back := by
      simp
    rw [hCut, hCut, Text.occurrences_append_cons hSome hLine,
      Text.occurrences_append_cons hSome hLine]
    omega

/-- Taking methods out puts no text together that did not stand together. -/
theorem occurrences_removeFrom_le (name : Text) (drop keep : Nat) (done ahead : Text) :
    Text.occurrences part (removeFrom name drop keep done ahead) ≤
      Text.occurrences part (done.reverse ++ ahead.drop drop) := by
  fun_induction removeFrom name drop keep done ahead with
  | case1 => simp
  | case2 drop keep done c rest ih => exact ih
  | case3 keep done c rest ih => simpa using ih
  | case4 done c rest found hFound ih => simpa using ih
  | case5 done c rest found declaration hFound length hRemoval ih =>
    have hDone : done.head?.all (· == '\n') = true := by
      by_contra hNot
      change (if done.head?.all (· == '\n') = true then declaration? name (c :: rest) else none) =
        some declaration at hFound
      rw [if_neg hNot] at hFound
      cases hFound
    refine ih.trans ?_
    exact occurrences_drop_le hSome hLine hDone (length - 1 + 1) (c :: rest)
  | case6 done c rest found declaration hFound hRemoval ih => simpa using ih

theorem contains_withoutMethods (sections : List Section) {body : Text}
    (h : Text.contains body part = false) :
    Text.contains (withoutMethods sections body) part = false := by
  have hNone : Text.occurrences part (withoutMethods sections body) = 0 := by
    have hBody := Text.occurrences_eq_zero h
    unfold withoutMethods
    generalize sections.flatMap (fun part => declaredMethods part.content) = names
    clear h
    induction names generalizing body with
    | nil => exact hBody
    | cons name rest ih =>
      apply ih
      have hLe := occurrences_removeFrom_le hSome hLine name 0 0 [] body
      rw [List.reverse_nil, List.nil_append, List.drop_zero, hBody] at hLe
      exact Nat.le_zero.mp hLe
  refine Bool.eq_false_iff.mpr fun hContains => ?_
  have hPos := Text.occurrences_pos hSome hContains
  omega

end

/-! ## Bodies -/

/-- The body of a class that is found, with what stands around it. -/
theorem exists_braces {text : Text} {classes : List ClassDecl} {decl : ClassDecl}
    (hClasses : classesOf text = .ok classes) (hDecl : decl ∈ classes) :
    ∃ front back, text = front ++ '{' :: (decl.body text ++ '}' :: back) ∧
      decl.opening = front.length ∧
      decl.closing = front.length + 1 + (decl.body text).length := by
  obtain ⟨first, last, hSplit⟩ := List.append_of_mem hDecl
  obtain ⟨earlier, site, later, hSites, -, rfl⟩ := exists_site hClasses hSplit
  obtain ⟨front, body, back, hParts⟩ := exists_classSplit hSites
  refine ⟨front, back, ?_, hParts.opening_eq, ?_⟩
  · rw [Site.decl_body, hParts.body_eq]
    exact hParts.text_eq
  · rw [Site.decl_body, hParts.body_eq]
    exact hParts.closing_eq

theorem OldFile.exists_braces {style : Style} {text : Text} {file : OldFile}
    (hFile : OldFile.ofText style text = .ok file) {old : OldClass} (hOld : old ∈ file.classes) :
    ∃ front back, text = front ++ '{' :: (old.decl.body text ++ '}' :: back) ∧
      old.decl.opening = front.length ∧
      old.decl.closing = front.length + 1 + (old.decl.body text).length :=
  Merge.exists_braces (OldFile.classesOf_eq hFile) (List.mem_map_of_mem hOld)

/-- A body without a start marker has no sections, if its sections end within it. -/
theorem sections_eq_nil {style : Style} {text : Text} {file : OldFile}
    (hFile : OldFile.ofText style text = .ok file) {old : OldClass} (hOld : old ∈ file.classes)
    (hWithin : style.EndsWithin text old)
    (hBody : Text.contains (old.decl.body text) style.startMarker = false) :
    old.sections = [] := by
  rw [List.eq_nil_iff_forall_not_mem]
  intro part hPart
  obtain ⟨pairs, pair, hPairs, hPair, hEncloses, -⟩ := exists_pair_of_section hFile hOld hPart
  have hStop := hWithin pairs (by rw [hPairs]; rfl) pair hPair hEncloses
  obtain ⟨before, opening, inner, closing, behind, hChunks, hOpening, -, hStart, hFirst, hSecond,
    hLast⟩ := exists_of_mem_pairs hPairs hPair
  simp only [ClassDecl.encloses, Bool.and_eq_true, decide_eq_true_eq] at hEncloses
  -- the whole start line is part of the body
  have hText : text = before.flatten ++
      (opening ++ (inner ++ closing :: behind).flatten) := by
    rw [← Text.chunks_flatten text, hChunks, List.flatten_append, List.flatten_cons]
  obtain ⟨tail, hBodyEq⟩ : ∃ tail, old.decl.body text =
      before.flatten.drop (old.decl.opening + 1) ++ (opening ++ tail) := by
    have hStart : old.decl.opening + 1 ≤ before.flatten.length := by omega
    have hStop : before.flatten.length + opening.length ≤ old.decl.closing := by omega
    have hAround := Text.slice_around hStart hStop (inner ++ closing :: behind).flatten
    rw [← hText] at hAround
    exact ⟨_, hAround⟩
  have hContains : Text.contains (old.decl.body text) style.startMarker = true := by
    obtain ⟨front, back, hMarked⟩ := Text.contains_iff.mp (Style.contains_of_markerOf? hOpening)
    rw [hBodyEq, hMarked]
    exact Text.contains_iff.mpr
      ⟨before.flatten.drop (old.decl.opening + 1) ++ front, back ++ tail, by simp⟩
  rw [hBody] at hContains
  cases hContains

section

variable {style : Style} (hStyle : style.IsPlain) (hTells : style.TellsMarkers)

include hStyle

/-- In front of the first start marker of a body, no start line begins within it. -/
theorem start_le_of_mem_markers {front upper : Text}
    (hUpper : Text.contains upper style.startMarker = false) {marker : Marker}
    (hKind : marker.kind = .start) {line : Nat}
    (h : marker ∈ style.markersFrom line 0 (Text.chunks (front ++ '{' :: (upper ++ ['\n'])))) :
    marker.start ≤ front.length := by
  by_contra hBehind
  obtain ⟨earlier, later, hMarkers⟩ := List.append_of_mem h
  obtain ⟨before, chunk, behind, hChunks, hMarker, -, hStart, -⟩ :=
    Style.exists_of_markersFrom_eq hMarkers
  rw [hKind] at hMarker
  have hText : (front ++ ['{']) ++ (upper ++ ['\n']) =
      before.flatten ++ (chunk ++ behind.flatten) := by
    rw [← List.flatten_cons, ← List.flatten_append, ← hChunks, Text.chunks_flatten]
    simp
  obtain ⟨middle, hFront⟩ : front ++ ['{'] <+: before.flatten := by
    refine List.prefix_of_prefix_length_le ⟨_, hText⟩ (List.prefix_append _ _) ?_
    rw [List.length_append, List.length_cons, List.length_nil]
    omega
  rw [← hFront] at hText
  have hBelow := List.append_cancel_left (hText.trans (List.append_assoc _ _ _))
  have hContains : Text.contains (upper ++ ['\n']) style.startMarker = true := by
    obtain ⟨first, last, hMarked⟩ := Text.contains_iff.mp (Style.contains_of_markerOf? hMarker)
    rw [hBelow, hMarked]
    exact Text.contains_iff.mpr ⟨middle ++ first, last ++ behind.flatten, by simp⟩
  rw [Text.contains_of_concat hStyle.startMark.2 hContains] at hUpper
  cases hUpper

include hTells

/-- The marker lines of a text with written sections behind whole lines, with the contents between
the lines of the sections. -/
theorem exists_markers_written {contents : List Text}
    (hContents : ∀ content ∈ contents, ∀ line ∈ content.lines, style.markerOf? line = none)
    {above : Text} (hAbove : Text.EndsLine above) (below : Text) :
    ∃ (middle : List (Marker × Marker)) (line : Nat),
      style.markers (above ++ (contents.flatMap style.writeSection ++ below)) =
        style.markersFrom 1 0 (Text.chunks above) ++
          (middle.flatMap (fun pair => [pair.1, pair.2]) ++
            style.markersFrom line (above.length + (contents.flatMap style.writeSection).length)
              (Text.chunks below)) ∧
      (∀ pair ∈ middle, pair.1.kind = .start ∧ pair.2.kind = .finish ∧
        above.length ≤ pair.1.start ∧
        pair.1.start < above.length + (contents.flatMap style.writeSection).length) ∧
      middle.map (fun pair =>
        Text.slice (above ++ (contents.flatMap style.writeSection ++ below)) pair.1.stop
          pair.2.start) = contents.map style.shown := by
  obtain ⟨middle, hMiddle, hKinds, hSlices⟩ := Style.exists_pairs_written hStyle.isLegible hTells
    hContents (1 + (Text.chunks above).length) above.length
  have hWritten : Text.EndsLine (contents.flatMap style.writeSection) :=
    Text.endsLine_flatMap fun content _ => Style.endsLine_writeSection content
  refine ⟨middle, 1 + (Text.chunks above).length +
    (Text.chunks (contents.flatMap style.writeSection)).length, ?_, hKinds, hSlices above below rfl⟩
  unfold Style.markers
  rw [Text.chunks_append hAbove, Text.chunks_append hWritten, Style.markersFrom_append,
    Style.markersFrom_append, Text.chunks_flatten, Text.chunks_flatten, Nat.zero_add, hMiddle]

/-- Sections that were written into a body are read back from it. -/
theorem contents_of_spliced {text : Text} {file : OldFile}
    (hFile : OldFile.ofText style text = .ok file) {old : OldClass} (hOld : old ∈ file.classes)
    {upper : Text} {contents : List Text} (hSome : contents ≠ [])
    (hBody : old.decl.body text = upper ++ ['\n'] ++ contents.flatMap style.writeSection)
    (hUpper : Text.contains upper style.startMarker = false)
    (hContents : ∀ content ∈ contents, ∀ line ∈ content.lines, style.markerOf? line = none) :
    old.sections.map Section.content = contents.map style.shown := by
  obtain ⟨pairs, hPairs, hAll⟩ := OldFile.contents_eq hFile
  obtain ⟨front, back, hText, hOpening, hClosing⟩ := OldFile.exists_braces hFile hOld
  rw [hAll old hOld]
  -- the text up to the sections, the sections, and what stands behind them
  have hAbove : Text.EndsLine (front ++ '{' :: (upper ++ ['\n'])) := by
    rw [← List.cons_append, ← List.append_assoc]
    exact Text.endsLine_concat _
  have hParts : text = (front ++ '{' :: (upper ++ ['\n'])) ++
      (contents.flatMap style.writeSection ++ '}' :: back) := by
    rw [hBody] at hText
    rw [hText]
    simp
  obtain ⟨middle, line, hMarkers, hKinds, hSlices⟩ :=
    exists_markers_written hStyle hTells hContents hAbove ('}' :: back)
  rw [← hParts] at hMarkers hSlices
  have hOpeningLt : old.decl.opening < (front ++ '{' :: (upper ++ ['\n'])).length := by
    rw [hOpening, List.length_append, List.length_cons]
    omega
  have hClosingEq : old.decl.closing = (front ++ '{' :: (upper ++ ['\n'])).length +
      (contents.flatMap style.writeSection).length := by
    rw [hClosing, hBody]
    simp only [List.length_append, List.length_cons, List.length_nil]
    omega
  have hMiddle : middle ≠ [] := by
    rintro rfl
    exact hSome (List.map_eq_nil_iff.mp hSlices.symm)
  have hPaired := Style.pairUp_of_pairs hPairs
  rw [hMarkers] at hPaired
  obtain ⟨first, last, rfl, hFirst, hLast⟩ := exists_of_pairUp_between hMiddle
    (fun pair hMem => ⟨(hKinds pair hMem).1, (hKinds pair hMem).2.1⟩) hPaired
  have hFirstNil : contentsWithin text old.decl first = [] := by
    refine contentsWithin_eq_nil fun pair hMem => ?_
    obtain ⟨hMarker, hKind⟩ := start_of_mem_pairUp hFirst hMem
    have hLe := start_le_of_mem_markers hStyle hUpper hKind hMarker
    rw [ClassDecl.encloses, hOpening, Bool.and_eq_false_iff]
    exact .inl (decide_eq_false (by omega))
  have hLastNil : contentsWithin text old.decl last = [] := by
    refine contentsWithin_eq_nil fun pair hMem => ?_
    obtain ⟨earlier, later, hMore⟩ := List.append_of_mem (start_of_mem_pairUp hLast hMem).1
    obtain ⟨_, _, _, -, -, -, hStart, -⟩ := Style.exists_of_markersFrom_eq hMore
    rw [ClassDecl.encloses, hClosingEq, Bool.and_eq_false_iff]
    exact .inr (decide_eq_false (by omega))
  have hWithin : contentsWithin text old.decl middle = contents.map style.shown := by
    rw [contentsWithin_of_encloses, hSlices]
    intro pair hMem
    obtain ⟨-, -, hLow, hHigh⟩ := hKinds pair hMem
    rw [ClassDecl.encloses, hClosingEq, Bool.and_eq_true, decide_eq_true_eq, decide_eq_true_eq]
    omega
  rw [contentsWithin_append, contentsWithin_append, hFirstNil, hLastNil, hWithin,
    List.nil_append, List.append_nil]

end

end XdrBindings.Merge
