import XdrBindings.Proofs.Code.Matching

/-!
# Scans and what they count

A reader says of one character after the other what it belongs to, and its mode holds the number
of comments open only in a block comment.  A scan reads the same text with separate counters: a
position that moves on by all the characters that are decided at once, a number of open comments
that stands beside the region whatever the region is, and for strings the sort they were opened in,
which stays behind when they are closed.  Nothing in the counters themselves keeps them from going
below zero, and the number of comments is a whole number so that it would show.

It does not: the number is positive in block comments and zero everywhere else, which each step
keeps.  The scan therefore goes the way of the reader, by one to three characters at a time, and
comes to an end.  The search for a closing brace counts blocks; all closing braces that it meets
find a block open.

## Main results

* `Scan.take_follows` — one step: what it keeps, and what the reader makes of the same characters.
* `Scan.Reached.counts` — what the steps keep holds on the whole way of a scan.
* `Scan.Reached.advance_eq` — a scan stands where the reader stands, in the same mode.
* `Scan.Reached.exists_end`, `Scan.Reached.position_eq_of_end` — every scan ends, where the reader
  ends.
* `search_judgeBlock_append` — the search within a block goes on with the blocks that are open.
* `scan_counters` — no counter goes below zero.
-/

namespace XdrBindings.Code

/-! ## Scans -/

/-- A scan of a text, between two steps. -/
structure Scan where
  /-- The position of the next character, which may be beyond the end of the text. -/
  position : Nat
  region : Region
  /-- The number of comments open. -/
  depth : Int
  /-- Whether the last string was opened by three quotes. -/
  triple : Bool
  /-- Whether the last string was raw. -/
  raw : Bool
  deriving DecidableEq, Repr

namespace Scan

/-- The scan at a position that is taken to be code. -/
def startingAt (position : Nat) : Scan := ⟨position, .code, 0, false, false⟩

/-- The scan some characters further on, in a region. -/
def goOn (scan : Scan) (count : Nat) (region : Region) : Scan :=
  { scan with position := scan.position + count, region }

/-- Takes what comes next in a string. -/
def takeQuoted (quote : Quote) (c : Char) (rest : Text) (scan : Scan) : Scan :=
  if c = '\\' ∧ ¬scan.raw then scan.goOn 2 quote.region
  else if c = quote.char then
    if ¬scan.triple then scan.goOn 1 .code
    else if quote.isTwiceAt rest then scan.goOn 3 .code
    else scan.goOn 1 quote.region
  else if c = '\n' ∧ ¬scan.triple then scan.goOn 1 .code
  else scan.goOn 1 quote.region

/-- Takes the next character with all that is decided together with it, `rest` being the text
behind it. -/
def take (behind : Behind) (c : Char) (rest : Text) (scan : Scan) : Scan :=
  match scan.region with
  | .code =>
    if c = '/' ∧ rest.head? = some '/' then scan.goOn 2 .lineComment
    else if c = '/' ∧ rest.head? = some '*' then { scan.goOn 2 .blockComment with depth := 1 }
    else
      match Quote.ofChar? c with
      | some quote =>
        let triple := quote.isTwiceAt rest
        { scan.goOn (if triple then 3 else 1) quote.region with triple, raw := behind.raw }
      | none => scan.goOn 1 .code
  | .lineComment => scan.goOn 1 (if c = '\n' then .code else .lineComment)
  | .blockComment =>
    if c = '*' ∧ rest.head? = some '/' then
      let depth := scan.depth - 1
      { scan.goOn 2 (if depth = 0 then .code else .blockComment) with depth }
    else if c = '/' ∧ rest.head? = some '*' then
      { scan.goOn 2 .blockComment with depth := scan.depth + 1 }
    else scan.goOn 1 .blockComment
  | .singleQuoted => scan.takeQuoted .single c rest
  | .doubleQuoted => scan.takeQuoted .double c rest

/-- The next step of a scan; there is none at the end of the text. -/
def next? (text : Text) (scan : Scan) : Option Scan :=
  match text.drop scan.position with
  | [] => none
  | c :: rest => some (scan.take (Behind.ofText (text.take scan.position)) c rest)

/-- The scans that are reached from a position in a number of steps. -/
inductive Reached (text : Text) (start : Nat) : (count : Nat) → Scan → Prop
  | start : Reached text start 0 (startingAt start)
  | step {count : Nat} {scan next : Scan} (reached : Reached text start count scan)
      (hNext : scan.next? text = some next) : Reached text start (count + 1) next

/-! ## One step -/

/-- Whether the number of open comments agrees with the region. -/
structure Counts (scan : Scan) : Prop where
  comment : scan.region = .blockComment → 1 ≤ scan.depth
  elsewhere : scan.region ≠ .blockComment → scan.depth = 0

theorem Counts.of_depth_eq_zero {scan : Scan} (hDepth : scan.depth = 0)
    (hRegion : scan.region ≠ .blockComment) : scan.Counts where
  comment h := absurd h hRegion
  elsewhere _ := hDepth

theorem Counts.of_comment {scan : Scan} (hRegion : scan.region = .blockComment)
    (hDepth : 1 ≤ scan.depth) : scan.Counts where
  comment _ := hDepth
  elsewhere h := absurd hRegion h

/-- The mode of a reader that knows what a scan knows. -/
def mode (scan : Scan) : Mode :=
  match scan.region with
  | .code => .code
  | .lineComment => .lineComment
  | .blockComment => .blockComment scan.depth.toNat
  | .singleQuoted => .string .single scan.triple scan.raw
  | .doubleQuoted => .string .double scan.triple scan.raw

/-- Whether a step between two scans is what a reader makes of its next character: the mode to go
on in, how many more characters are held, and their region. -/
structure Follows (scan next : Scan) (made : Mode × Nat × Region) : Prop where
  counts : next.Counts
  mode_eq : next.mode = made.1
  position_eq : next.position = scan.position + (made.2.1 + 1)

variable {scan : Scan} {behind : Behind} {c : Char} {rest : Text}

theorem mode_goOn_quote (scan : Scan) (count : Nat) (quote : Quote) :
    (scan.goOn count quote.region).mode = .string quote scan.triple scan.raw := by
  cases quote <;> rfl

/-- Where no comment is open, a scan goes on in any region but a block comment. -/
theorem follows_goOn (hDepth : scan.depth = 0) (held : Nat) {next as : Region}
    (hNext : next ≠ .blockComment) {mode : Mode}
    (hMode : (scan.goOn (held + 1) next).mode = mode) :
    Follows scan (scan.goOn (held + 1) next) (mode, held, as) where
  counts := .of_depth_eq_zero hDepth hNext
  mode_eq := hMode
  position_eq := rfl

theorem region_quote_ne (quote : Quote) : quote.region ≠ .blockComment := by
  cases quote <;> decide

theorem takeQuoted_follows (hDepth : scan.depth = 0) (quote : Quote) :
    Follows scan (scan.takeQuoted quote c rest)
      ((Mode.string quote scan.triple scan.raw).read behind c rest) := by
  have hInside {held : Nat} : Follows scan (scan.goOn (held + 1) quote.region)
      (.string quote scan.triple scan.raw, held, quote.region) :=
    follows_goOn hDepth held (region_quote_ne quote) (mode_goOn_quote _ _ _)
  have hOutside {held : Nat} {as : Region} :
      Follows scan (scan.goOn (held + 1) .code) (.code, held, as) :=
    follows_goOn hDepth held (by decide) rfl
  unfold takeQuoted
  simp only [Mode.read]
  split
  · exact hInside
  · split
    · split
      · exact hOutside
      · split
        · exact hOutside
        · exact hInside
    · split
      · exact hOutside
      · exact hInside

/-- In a block comment the number of open comments is positive, so a mark that closes one leaves
none or a positive number. -/
theorem take_follows_of_comment (hRegion : scan.region = .blockComment) (h : 1 ≤ scan.depth) :
    Follows scan (scan.take behind c rest)
      ((Mode.blockComment scan.depth.toNat).read behind c rest) := by
  unfold take
  rw [hRegion]
  simp only [Mode.read]
  split
  · -- a comment is closed
    have hLast : (scan.depth - 1 = 0) ↔ (scan.depth.toNat - 1 = 0) := by omega
    have hToNat : (scan.depth - 1).toNat = scan.depth.toNat - 1 := by omega
    by_cases hZero : scan.depth - 1 = 0
    · rw [if_pos hZero, if_pos (hLast.mp hZero)]
      exact ⟨.of_depth_eq_zero hZero (show Region.code ≠ .blockComment by decide), rfl, rfl⟩
    · rw [if_neg hZero, if_neg (mt hLast.mpr hZero), ← hToNat]
      exact ⟨.of_comment rfl (by dsimp only; omega), rfl, rfl⟩
  · split
    · -- a comment is opened
      have hToNat : (scan.depth + 1).toNat = scan.depth.toNat + 1 := by omega
      rw [← hToNat]
      exact ⟨.of_comment rfl (by dsimp only; omega), rfl, rfl⟩
    · exact ⟨.of_comment rfl h, rfl, rfl⟩

theorem take_follows_of_code (hRegion : scan.region = .code) (hDepth : scan.depth = 0) :
    Follows scan (scan.take behind c rest) (Mode.code.read behind c rest) := by
  unfold take
  rw [hRegion]
  simp only [Mode.read]
  split
  · exact follows_goOn hDepth 1 (by decide) rfl
  · split
    · exact ⟨.of_comment rfl (Int.le_refl 1), rfl, rfl⟩
    · cases Quote.ofChar? c with
      | none => exact follows_goOn hDepth 0 (by decide) rfl
      | some quote =>
        refine ⟨.of_depth_eq_zero hDepth (region_quote_ne quote), ?_, ?_⟩
        · cases quote <;> rfl
        · dsimp only [goOn]
          split <;> rfl

/-- A step keeps what is said of the counters, and does what the reader does. -/
theorem take_follows (h : scan.Counts) (behind : Behind) (c : Char) (rest : Text) :
    Follows scan (scan.take behind c rest) (scan.mode.read behind c rest) := by
  cases hRegion : scan.region with
  | code =>
    have hDepth := h.elsewhere (by rw [hRegion]; decide)
    simpa only [mode, hRegion] using take_follows_of_code hRegion hDepth
  | lineComment =>
    have hDepth := h.elsewhere (by rw [hRegion]; decide)
    simp only [take, mode, hRegion, Mode.read]
    split
    · exact follows_goOn hDepth 0 (by decide) rfl
    · exact follows_goOn hDepth 0 (by decide) rfl
  | blockComment =>
    simpa only [mode, hRegion] using take_follows_of_comment hRegion (h.comment hRegion)
  | singleQuoted =>
    have hDepth := h.elsewhere (by rw [hRegion]; decide)
    simpa only [take, mode, hRegion] using takeQuoted_follows hDepth .single
  | doubleQuoted =>
    have hDepth := h.elsewhere (by rw [hRegion]; decide)
    simpa only [take, mode, hRegion] using takeQuoted_follows hDepth .double

theorem next?_eq_some_iff {text : Text} {next : Scan} :
    scan.next? text = some next ↔ ∃ c rest, text.drop scan.position = c :: rest ∧
      next = scan.take (Behind.ofText (text.take scan.position)) c rest := by
  unfold next?
  split
  · next hAhead => simp [hAhead]
  · next c rest hAhead =>
    simp only [hAhead, Option.some.injEq, List.cons.injEq]
    constructor
    · rintro rfl
      exact ⟨c, rest, ⟨rfl, rfl⟩, rfl⟩
    · rintro ⟨_, _, ⟨rfl, rfl⟩, rfl⟩
      rfl

theorem next?_eq_none_iff {text : Text} :
    scan.next? text = none ↔ text.length ≤ scan.position := by
  unfold next?
  split
  · next hAhead => simpa using hAhead
  · next c rest hAhead =>
    have hLength := congrArg List.length hAhead
    simp only [List.length_drop, List.length_cons] at hLength
    simp only [reduceCtorEq, false_iff]
    omega

/-- A step takes one to three characters, and the first of them is in the text. -/
theorem next?_advances {text : Text} {next : Scan} (h : scan.Counts)
    (hNext : scan.next? text = some next) :
    next.Counts ∧ scan.position < text.length ∧
      scan.position + 1 ≤ next.position ∧ next.position ≤ scan.position + 3 := by
  obtain ⟨c, rest, hAhead, rfl⟩ := next?_eq_some_iff.mp hNext
  have hFollows := take_follows h (Behind.ofText (text.take scan.position)) c rest
  have hHeld := read_held_le (Behind.ofText (text.take scan.position)) c rest scan.mode
  have hPosition := hFollows.position_eq
  have hLength : ¬text.length ≤ scan.position := by
    rw [← next?_eq_none_iff, hNext]
    exact Option.some_ne_none _
  exact ⟨hFollows.counts, by omega, by omega, by omega⟩

/-! ## The whole way -/

variable {text : Text} {start count : Nat}

theorem counts_startingAt (start : Nat) : (startingAt start).Counts :=
  .of_depth_eq_zero rfl (by simp [startingAt])

namespace Reached

theorem counts (h : Reached text start count scan) : scan.Counts := by
  induction h with
  | start => exact counts_startingAt start
  | step _ hNext ih => exact (next?_advances ih hNext).1

/-- Each step moves the position on. -/
theorem count_le (h : Reached text start count scan) : start + count ≤ scan.position := by
  induction h with
  | start => exact Nat.le_refl start
  | step reached hNext ih =>
    obtain ⟨-, -, hMove, -⟩ := next?_advances reached.counts hNext
    omega

/-- No scan takes more steps than there are characters. -/
theorem count_le_length (h : Reached text start count scan) : count ≤ text.length - start := by
  cases h with
  | start => exact Nat.zero_le _
  | step reached hNext =>
    obtain ⟨-, hInside, -, -⟩ := next?_advances reached.counts hNext
    have hCount := reached.count_le
    omega

end Reached

end Scan

/-! ## The way of the reader -/

/-- The characters that are held are passed over. -/
theorem Reader.advance_held (behind : Behind) (mode : Mode) (held : Nat) (heldAs : Region)
    (text : Text) :
    (Reader.mk behind mode held heldAs).advance held text =
      ⟨behind.after (text.take held), mode, held - text.length, heldAs⟩ := by
  induction held generalizing behind text with
  | zero => simp [advance]
  | succ held ih =>
    cases text with
    | nil => rfl
    | cons c rest => simp [advance, step, ih]

namespace Scan

variable {scan : Scan} {text : Text} {start count : Nat}

/-- A scan stands where the reader of the same text stands, in the same mode.  Beyond the end of
the text the reader holds what is missing. -/
theorem Reached.advance_eq (h : Reached text start count scan) :
    ∃ heldAs, (Reader.startingAt text start).advance (scan.position - start) (text.drop start) =
      ⟨Behind.ofText (text.take scan.position), scan.mode,
        scan.position - max start text.length, heldAs⟩ := by
  induction h with
  | start =>
    refine ⟨.code, ?_⟩
    have hHeld : start - max start text.length = 0 := by omega
    simp only [startingAt, Nat.sub_self, Reader.advance, hHeld]
    rfl
  | @step count scan next reached hNext ih =>
    obtain ⟨heldAs, hReader⟩ := ih
    have hCounts := reached.counts
    obtain ⟨-, hInside, hMove, -⟩ := next?_advances hCounts hNext
    have hStart := reached.count_le
    obtain ⟨c, rest, hAhead, rfl⟩ := next?_eq_some_iff.mp hNext
    obtain ⟨-, hMode, hPosition⟩ :=
      take_follows hCounts (Behind.ofText (text.take scan.position)) c rest
    have hLength := congrArg List.length hAhead
    simp only [List.length_drop, List.length_cons] at hLength
    generalize hMade : scan.mode.read (Behind.ofText (text.take scan.position)) c rest = made
      at hMode hPosition
    obtain ⟨mode, held, region⟩ := made
    generalize scan.take (Behind.ofText (text.take scan.position)) c rest = next
      at hMode hPosition hMove ⊢
    dsimp only at hMode hPosition
    -- the reader holds nothing, so that it looks at the next character
    have hNone : scan.position - max start text.length = 0 := by omega
    have hFurther : next.position - start = (scan.position - start) + (held + 1) := by omega
    have hDrop : (text.drop start).drop (scan.position - start) = c :: rest := by
      rw [List.drop_drop, Nat.add_sub_of_le (by omega), hAhead]
    have hTake : text.take next.position =
        text.take scan.position ++ (c :: rest).take (held + 1) := by
      rw [hPosition, List.take_add, hAhead]
    have hHeld : held - rest.length = next.position - max start text.length := by omega
    refine ⟨region, ?_⟩
    rw [hFurther, Reader.advance_add, hReader, hDrop, hNone, Reader.advance]
    simp only [Reader.step, hMade]
    rw [Reader.advance_held, hTake, Behind.ofText_append, List.take_succ_cons, Behind.after_cons,
      hHeld, hMode]

/-- Where a scan ends, the reader ends. -/
theorem Reached.position_eq_of_end (h : Reached text start count scan)
    (hEnd : scan.next? text = none) : scan.position = endPosition text start := by
  obtain ⟨heldAs, hReader⟩ := h.advance_eq
  have hCount := h.count_le
  have hLength := next?_eq_none_iff.mp hEnd
  have hSplit : scan.position - start =
      (text.drop start).length + (scan.position - start - (text.drop start).length) := by
    simp only [List.length_drop]
    omega
  have hNothing (reader : Reader) (more : Nat) : reader.advance more [] = reader := by
    cases more <;> rfl
  rw [hSplit, Reader.advance_add, List.drop_length, hNothing] at hReader
  have hHeld : (readerAtEnd text start).held = scan.position - max start text.length := by
    rw [readerAtEnd, hReader]
  rw [endPosition, hHeld]
  omega

/-- Every scan comes to an end: each step leaves fewer characters. -/
theorem Reached.exists_end (h : Reached text start count scan) :
    ∃ total last, Reached text start total last ∧ last.next? text = none := by
  generalize hLeft : text.length - scan.position = left
  induction left using Nat.strongRecOn generalizing count scan with
  | ind left ih =>
    cases hNext : scan.next? text with
    | none => exact ⟨count, scan, h, hNext⟩
    | some next =>
      obtain ⟨-, hInside, hMove, -⟩ := next?_advances h.counts hNext
      exact ih (text.length - next.position) (by omega) (h.step hNext) rfl

end Scan

/-! ## Blocks -/

/-- The number of blocks open behind characters of code, each closing brace taken off. -/
def blocksOpen (chars : Text) : Int := chars.count '{' - chars.count '}'

/-- A search within a block that has not ended goes on with the blocks that are open. -/
theorem search_judgeBlock_append {depth : Nat} {front : List (Nat × Char)}
    (h : search judgeBlock (depth + 1) front = none) :
    ∃ opened, openBlocks depth (front.map Prod.snd) = some opened ∧
      ∀ back, search judgeBlock (depth + 1) (front ++ back) =
        search judgeBlock (opened + 1) back := by
  induction front generalizing depth with
  | nil => exact ⟨depth, rfl, fun _ => rfl⟩
  | cons unit rest ih =>
    obtain ⟨position, c⟩ := unit
    by_cases hFound : c = '}' ∧ depth = 0
    · obtain ⟨rfl, rfl⟩ := hFound
      cases h
    · rw [search_judgeBlock_cons hFound] at h
      obtain ⟨opened, hOpened, hBack⟩ := ih h
      refine ⟨opened, ?_, fun back => ?_⟩
      · rw [List.map_cons, openBlocks, if_neg hFound, hOpened]
      · rw [List.cons_append, search_judgeBlock_cons hFound, hBack]

/-- The first character of code from a brace on is the brace. -/
theorem exists_codeUnitsAt_eq {text : Text} {opening : Nat} (h : text[opening]? = some '{') :
    ∃ later, codeUnitsAt text opening = (opening, '{') :: later := by
  obtain ⟨hInside, hChar⟩ := List.getElem?_eq_some_iff.mp h
  have hAhead : text.drop opening = '{' :: text.drop (opening + 1) := by
    rw [List.drop_eq_getElem_cons hInside, hChar]
  exact ⟨_, by rw [codeUnitsAt, hAhead]; rfl⟩

/-- Where the search for a closing brace meets one, a block is open, and the search goes on with
the number of those that are. -/
theorem closingBrace?_eq_of_met {text : Text} {opening place : Nat}
    {front back : List (Nat × Char)} (hBrace : text[opening]? = some '{')
    (hUnits : codeUnitsAt text opening = front ++ (place, '}') :: back)
    (hFront : search judgeBlock 0 front = none) :
    1 ≤ blocksOpen (front.map Prod.snd) ∧
      closingBrace? text opening =
        search judgeBlock (blocksOpen (front.map Prod.snd)).toNat ((place, '}') :: back) := by
  obtain ⟨later, hLater⟩ := exists_codeUnitsAt_eq hBrace
  cases front with
  | nil => cases hUnits.symm.trans hLater
  | cons first others =>
    obtain ⟨rfl, -⟩ := List.cons.inj (hUnits.symm.trans hLater)
    have hFirst (units : List (Nat × Char)) :
        search judgeBlock 0 ((opening, '{') :: units) = search judgeBlock (0 + 1) units := rfl
    rw [hFirst] at hFront
    obtain ⟨opened, hOpened, hBack⟩ := search_judgeBlock_append hFront
    obtain ⟨hCount, -⟩ := openBlocks_eq_some_iff.mp hOpened
    have hBlocks : blocksOpen (((opening, '{') :: others).map Prod.snd) = opened + 1 := by
      simp only [blocksOpen, List.map_cons, List.count_cons]
      simp
      omega
    rw [hBlocks]
    refine ⟨by omega, ?_⟩
    rw [closingBrace?_eq, if_pos hBrace, hUnits, List.cons_append, hFirst, hBack]
    rfl

/-! ## No counter goes below zero -/

/-- For every text and every position to begin at, also within a comment or a string and beyond the
end of the text: whatever scan is reached from there, its number of open comments is positive
exactly in a block comment and zero elsewhere, its next step takes one to three characters, and it
stands where the reader stands, in the same mode.  A scan takes no more steps than there are
characters, and it does come to an end, where the reader ends.  Where the search for a closing brace
has not ended and meets a closing brace of code, at least one block is open behind the characters
before it, and the search goes on with that number.

The positions are offsets in bytes where the text is that of the bytes of a string. -/
theorem scan_counters (text : Text) (start : Nat) :
    (∀ count scan, Scan.Reached text start count scan →
      (1 ≤ scan.depth ↔ scan.region = .blockComment) ∧
      (scan.region ≠ .blockComment → scan.depth = 0) ∧
      (∀ next, scan.next? text = some next →
        scan.position + 1 ≤ next.position ∧ next.position ≤ scan.position + 3) ∧
      count ≤ text.length - start ∧
      ∃ heldAs, (Reader.startingAt text start).advance (scan.position - start) (text.drop start) =
        ⟨Behind.ofText (text.take scan.position), scan.mode,
          scan.position - max start text.length, heldAs⟩) ∧
    (∃ total last, Scan.Reached text start total last ∧ last.next? text = none ∧
      last.position = endPosition text start) ∧
    ∀ front place back, text[start]? = some '{' →
      codeUnitsAt text start = front ++ (place, '}') :: back →
      search judgeBlock 0 front = none →
        1 ≤ blocksOpen (front.map Prod.snd) ∧
          closingBrace? text start =
            search judgeBlock (blocksOpen (front.map Prod.snd)).toNat ((place, '}') :: back) := by
  refine ⟨fun count scan h => ?_, ?_, fun front place back => closingBrace?_eq_of_met⟩
  · have hCounts := h.counts
    refine ⟨⟨fun hDepth => ?_, hCounts.comment⟩, hCounts.elsewhere, fun next hNext => ?_,
      h.count_le_length, h.advance_eq⟩
    · by_contra hRegion
      rw [hCounts.elsewhere hRegion] at hDepth
      exact absurd hDepth (by decide)
    · exact (Scan.next?_advances hCounts hNext).2.2
  · have hStart : Scan.Reached text start 0 (.startingAt start) := .start
    obtain ⟨total, last, hLast, hEnd⟩ := hStart.exists_end
    exact ⟨total, last, hLast, hEnd, hLast.position_eq_of_end hEnd⟩

end XdrBindings.Code
