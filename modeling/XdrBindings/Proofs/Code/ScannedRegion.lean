import XdrBindings.Proofs.Code.Scans
import XdrBindings.Proofs.Code.Views

/-!
# The region of a position by a scan

`regionAt` looks a position up in the list of all regions.  A scan has no such list.  It goes on
until a step leaves the position behind, and infers the region of the position from what it knows
in front of the step and behind it: a step out of code that reports nothing belongs to what it
opens, and any other step to what it stands in.  Where the text ends before, the region is the one
that the scan ends in.

Both give the same answer at every position.  The inference could only fail where a step moves on
beyond the end of the text and into another region; but all that a comment mark or a delimiter
takes is in the text, and an escape stays in its string.

## Main results

* `Scan.region_read` — the region of what a step takes, inferred from the step.
* `Scan.Reached.regionAt_eq` — the region of a position within a step.
* `Scan.regionAtFrom_startingAt` — a scan finds the region of every position.
-/

namespace XdrBindings.Code

/-- Whatever is held beyond the end of a text is held by an escape, which leaves the mode as it
is. -/
theorem read_of_length_lt_held {behind : Behind} {c : Char} {rest : Text} {mode : Mode}
    (h : rest.length < (mode.read behind c rest).2.1) : (mode.read behind c rest).1 = mode := by
  have hNext {d : Char} (hHead : rest.head? = some d) : ¬rest.length < 1 := by
    cases rest <;> simp_all
  have hTwice {quote : Quote} (hQuote : quote.isTwiceAt rest = true) : ¬rest.length < 2 := by
    have hLength := (List.isPrefixOf_iff_prefix.mp hQuote).length_le
    simp at hLength
    omega
  cases mode <;> simp only [Mode.read] at h ⊢ <;> grind

namespace Scan

variable {scan : Scan} {behind : Behind} {c : Char} {rest text : Text} {position count : Nat}

/-- Whether a scan reports the next character as code. -/
def reports (c : Char) (rest : Text) (scan : Scan) : Bool :=
  match scan.region with
  | .code =>
    !(c == '/' && (rest.head? == some '/' || rest.head? == some '*')) && (Quote.ofChar? c).isNone
  | .lineComment => c == '\n'
  | .blockComment => false
  | .singleQuoted | .doubleQuoted => c == '\n' && !scan.triple

theorem position_lt_take (scan : Scan) (behind : Behind) (c : Char) (rest : Text) :
    scan.position < (scan.take behind c rest).position := by
  unfold take takeQuoted
  grind [goOn]

/-- The region of a position, by a scan that goes on until it is past that position. -/
def regionAtFrom (text : Text) (position : Nat) (scan : Scan) : Region :=
  match _hAhead : text.drop scan.position with
  | [] => scan.region
  | c :: rest =>
    let next := scan.take (Behind.ofText (text.take scan.position)) c rest
    if scan.reports c rest ∧ scan.position = position then .code
    else if position < next.position then
      if scan.region = .code then next.region else scan.region
    else next.regionAtFrom text position
termination_by text.length - scan.position
decreasing_by
  have hMove := scan.position_lt_take (Behind.ofText (text.take scan.position)) c rest
  have hLength := congrArg List.length _hAhead
  simp only [List.length_drop, List.length_cons] at hLength
  omega

/-! ## One step -/

theorem region_mode (scan : Scan) : scan.mode.region = scan.region := by
  unfold mode
  cases hRegion : scan.region <;> rfl

/-- The region of what a step takes: code if the step reports it, else what the step leads to out of
code, and else what it stands in. -/
theorem region_read (scan : Scan) (behind : Behind) (c : Char) (rest : Text) :
    (scan.mode.read behind c rest).2.2 =
      if scan.reports c rest then .code
      else if scan.region = .code then (scan.take behind c rest).region else scan.region := by
  have hNewline (quote : Quote) : quote.char ≠ '\n' := by cases quote <;> decide
  have hQuoted (quote : Quote) :
      ((Mode.string quote scan.triple scan.raw).read behind c rest).2.2 =
        if (c == '\n' && !scan.triple) = true then .code else quote.region := by
    simp only [Mode.read]
    grind
  cases hRegion : scan.region with
  | code =>
    simp only [mode, reports, take, hRegion, Mode.read]
    cases Quote.ofChar? c <;> grind [goOn]
  | lineComment =>
    simp only [mode, reports, hRegion, Mode.read]
    grind
  | blockComment =>
    simp only [mode, reports, hRegion, Mode.read]
    grind
  | singleQuoted => simpa [mode, reports, hRegion, Quote.region] using hQuoted .single
  | doubleQuoted => simpa [mode, reports, hRegion, Quote.region] using hQuoted .double

/-- All that a step takes has one region, as far as the text goes. -/
theorem Reached.regionAt_eq (h : Reached text 0 count scan)
    (hAhead : text.drop scan.position = c :: rest) (hStart : scan.position ≤ position)
    (hStop : position < (scan.take (Behind.ofText (text.take scan.position)) c rest).position)
    (hLength : position < text.length) :
    regionAt text position =
      (scan.mode.read (Behind.ofText (text.take scan.position)) c rest).2.2 := by
  have hTakes := (take_follows h.counts (Behind.ofText (text.take scan.position)) c rest).position_eq
  rcases hRead : scan.mode.read (Behind.ofText (text.take scan.position)) c rest with
    ⟨next, held, region⟩
  rw [hTakes, hRead] at hStop
  dsimp only at hStop
  obtain ⟨heldAs, hReader⟩ := h.advance_eq
  have hInside : scan.position - max 0 text.length = 0 := by omega
  rw [hInside] at hReader
  -- the regions from the step on begin with that of each character that is taken
  have hRegions : (regions text).drop scan.position = _ :=
    Reader.regionsFrom_drop Reader.start scan.position text
  rw [show Reader.start.advance scan.position text = _ from hReader, hAhead,
    Reader.regionsFrom_of_held_eq_zero rfl, Reader.regionsFrom_read hRead] at hRegions
  have hTaken := congrArg List.length hAhead
  simp only [List.length_drop, List.length_cons] at hTaken
  have hOffset : (regions text)[position]? =
      ((regions text).drop scan.position)[position - scan.position]? := by
    rw [List.getElem?_drop, Nat.add_sub_of_le hStart]
  have hWithin : position - scan.position < (rest.take held).length + 1 := by
    rw [List.length_take]
    omega
  rw [regionAt, hOffset, hRegions, List.getElem?_append_left (by simpa using hWithin),
    List.getElem?_replicate, if_pos hWithin]
  rfl

/-- A scan that has come to the end of a text is in the region that the text ends in. -/
theorem Reached.regionAt_eq_of_end (h : Reached text 0 count scan)
    (hEnd : text.length ≤ scan.position) (hLength : text.length ≤ position) :
    regionAt text position = scan.region := by
  obtain ⟨heldAs, hReader⟩ := h.advance_eq
  have hNothing (reader : Reader) (more : Nat) : reader.advance more [] = reader := by
    cases more <;> rfl
  have hSplit : scan.position - 0 = text.length + (scan.position - text.length) := by omega
  rw [hSplit, List.drop_zero, Reader.advance_add, List.drop_length, hNothing] at hReader
  have hMode : (readerAtEnd text 0).mode = scan.mode := congrArg Reader.mode hReader
  rw [regionAt_of_length_le hLength, hMode, region_mode]

/-- The region of a position that a step leaves behind, inferred from the step. -/
theorem Reached.regionAt_of_lt_take (h : Reached text 0 count scan)
    (hAhead : text.drop scan.position = c :: rest) (hStart : scan.position ≤ position) {next : Scan}
    (hNext : next = scan.take (Behind.ofText (text.take scan.position)) c rest)
    (hStop : position < next.position) :
    regionAt text position =
      if scan.reports c rest ∧ scan.position = position then .code
      else if scan.region = .code then next.region else scan.region := by
  have hFollows := take_follows h.counts (Behind.ofText (text.take scan.position)) c rest
  have hPosition := hFollows.position_eq
  have hMode := hFollows.mode_eq
  have hTaken := congrArg List.length hAhead
  simp only [List.length_drop, List.length_cons] at hTaken
  by_cases hLength : position < text.length
  · have hRegion := h.regionAt_eq hAhead hStart (hNext ▸ hStop) hLength
    by_cases hReports : scan.reports c rest = true
    · -- a character of code is taken alone, so it is the one at the position
      have hCode := scan.region_read (Behind.ofText (text.take scan.position)) c rest
      rw [if_pos hReports] at hCode
      have hAlone := (read_of_code hCode).2
      rw [hNext, hPosition] at hStop
      have hHere : scan.position = position := by omega
      rw [if_pos ⟨hReports, hHere⟩, hRegion, hCode]
    · rw [if_neg fun hBoth => hReports hBoth.1, hRegion, region_read, if_neg hReports, hNext]
  · have hReached : Reached text 0 (count + 1) next :=
      h.step (next?_eq_some_iff.mpr ⟨c, rest, hAhead, hNext⟩)
    have hBeyond : scan.position ≠ position := by omega
    rw [hReached.regionAt_eq_of_end (by omega) (by omega), if_neg fun hBoth => hBeyond hBoth.2]
    split
    · rfl
    · have hHeld := hStop
      rw [hNext, hPosition] at hHeld
      have hSame : (scan.mode.read (Behind.ofText (text.take scan.position)) c rest).1 = scan.mode :=
        read_of_length_lt_held (by omega)
      rw [← region_mode, hNext, hMode, hSame, region_mode]

/-! ## The whole way -/

theorem Reached.regionAtFrom_eq (h : Reached text 0 count scan)
    (hStart : scan.position ≤ position) :
    scan.regionAtFrom text position = regionAt text position := by
  fun_induction regionAtFrom text position scan generalizing count with
  | case1 scan hAhead =>
    have hEnd : text.length ≤ scan.position := by simpa using hAhead
    exact (h.regionAt_eq_of_end hEnd (hEnd.trans hStart)).symm
  | case2 scan c rest hAhead hHere =>
    have hMove := scan.position_lt_take (Behind.ofText (text.take scan.position)) c rest
    rw [h.regionAt_of_lt_take hAhead hStart rfl (hHere.2 ▸ hMove), if_pos hHere]
  | case3 scan c rest hAhead next hElse hStop =>
    rename_i hCode
    rw [h.regionAt_of_lt_take hAhead hStart rfl hStop, if_neg hElse, if_pos hCode]
  | case4 scan c rest hAhead next hElse hStop =>
    rename_i hOther
    rw [h.regionAt_of_lt_take hAhead hStart rfl hStop, if_neg hElse, if_neg hOther]
  | case5 scan c rest hAhead next hElse hBeyond =>
    rename_i ih
    exact ih (h.step (next?_eq_some_iff.mpr ⟨c, rest, hAhead, rfl⟩)) (Nat.le_of_not_lt hBeyond)

/-- A scan from the beginning of a text finds the region of every position. -/
theorem regionAtFrom_startingAt (text : Text) (position : Nat) :
    (startingAt 0).regionAtFrom text position = regionAt text position :=
  Reached.start.regionAtFrom_eq (Nat.zero_le position)

end Scan

end XdrBindings.Code
