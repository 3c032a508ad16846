import XdrBindings.Proofs.Code.ClassWalk

/-!
# Matching braces

A brace that opens a block is matched by the brace behind it that leaves a balanced text of code
between the two.  That says nothing about a search: `IsBalanced` counts braces, and `Matches` looks
at the code of the whole text.  The search for a closing brace begins at the opening one, with a
reader that knows no more of the text than that it stands in code there.  Such a reader finds the
code that a reader of the whole text finds from there on.

## Main results

* `exists_of_codeSpots_eq` — reading from a place of code on.
* `depthAt?_of_codeSpots_eq` — the depth at a place of code.
* `openBlocks_eq_some_iff` — open blocks are counted by counting braces.
* `closingBrace?_eq_some_iff` — the search for a closing brace finds the match.
-/

namespace XdrBindings.Code

/-! ## Reading from a place of code on -/

/-- A character that is code is read alike by every reader in code. -/
theorem Reader.step_of_code_eq {reader : Reader} {c : Char} {rest : Text}
    (hHolds : reader.HoldsNoCode) (hCode : (reader.step c rest).2 = .code) :
    reader.step c rest = (inCode reader.behind).step c rest := by
  obtain ⟨behind, mode, held, heldAs⟩ := reader
  cases held with
  | succ held => exact absurd hCode (hHolds (Nat.succ_ne_zero held))
  | zero =>
    change (mode.read behind c rest).2.2 = .code at hCode
    have hQuote (quote : Quote) : quote.region ≠ .code := by cases quote <;> decide
    have hLine (other : Text) : Mode.code.read behind '\n' other = (.code, 0, .code) := rfl
    -- outside of code only a newline is code
    have hRead : mode.read behind c rest = Mode.code.read behind c rest := by
      cases mode with
      | code => rfl
      | lineComment =>
        by_cases hNewline : c = '\n'
        · subst hNewline
          rfl
        · simp [Mode.read, hNewline] at hCode
      | blockComment depth => simp only [Mode.read] at hCode; grind
      | string quote triple raw =>
        by_cases hNewline : c = '\n'
        · subst hNewline
          rw [hLine]
          have hNe : '\n' ≠ quote.char := by cases quote <;> decide
          simp only [Mode.read, hNe, if_false] at hCode ⊢
          grind
        · simp only [Mode.read, hNewline] at hCode
          grind
    simp only [step, inCode, hRead]

/-- A place of code cuts a text in two, and what is behind the cut can be read on its own. -/
theorem Reader.restart {reader : Reader} {position : Nat} {text : Text} {earlier later : List Spot}
    {spot : Spot} (hHolds : reader.HoldsNoCode)
    (h : reader.spotsFrom position text = earlier ++ spot :: later) :
    ∃ front, text = front ++ spot.ahead ∧ spot.position = position + front.length ∧
      spot.behind = reader.behind.after front ∧
      spot :: later = (inCode spot.behind).spotsFrom spot.position spot.ahead := by
  induction text generalizing reader position earlier with
  | nil => simp [spotsFrom] at h
  | cons c rest ih =>
    -- the case of a cut further on
    have hFurther {others : List Spot}
        (hOthers : (reader.step c rest).1.spotsFrom (position + 1) rest = others ++ spot :: later) :
        ∃ front, c :: rest = front ++ spot.ahead ∧ spot.position = position + front.length ∧
          spot.behind = reader.behind.after front ∧
          spot :: later = (inCode spot.behind).spotsFrom spot.position spot.ahead := by
      obtain ⟨front, hRest, hPosition, hBehind, hLater⟩ :=
        ih (holdsNoCode_step hHolds c rest) hOthers
      refine ⟨c :: front, by rw [hRest]; rfl, ?_, ?_, hLater⟩
      · rw [hPosition, List.length_cons]
        omega
      · rw [hBehind, behind_step, Behind.after_cons]
    rw [spotsFrom] at h
    by_cases hCode : (reader.step c rest).2 = .code
    · simp only [hCode, if_true] at h
      cases earlier with
      | nil =>
        obtain ⟨rfl, hLater⟩ := List.cons.inj h
        refine ⟨[], rfl, rfl, rfl, ?_⟩
        have hStep := step_of_code_eq hHolds hCode
        rw [hStep] at hCode hLater
        show _ = (inCode reader.behind).spotsFrom position (c :: rest)
        simp only [spotsFrom, hCode, if_true]
        rw [hLater]
        rfl
      | cons first others => exact hFurther (List.cons.inj h).2
    · simp only [hCode, if_false] at h
      exact hFurther h

/-- What stands at a place of code of a text. -/
theorem exists_of_codeSpots_eq {text : Text} {earlier later : List Spot} {spot : Spot}
    (h : codeSpots text = earlier ++ spot :: later) :
    ∃ front, text = front ++ spot.ahead ∧ spot.position = front.length ∧
      spot.behind = Behind.ofText front ∧
      codeUnitsAt text spot.position =
        (spot :: later).map fun spot => (spot.position, spot.char) := by
  obtain ⟨front, hText, hPosition, hBehind, hLater⟩ :=
    Reader.restart (Reader.holdsNoCode_inCode _) h
  rw [Nat.zero_add] at hPosition
  refine ⟨front, hText, hPosition, hBehind, ?_⟩
  have hTake : text.take spot.position = front := by rw [hText, hPosition, List.take_left]
  have hDrop : text.drop spot.position = spot.ahead := by rw [hText, hPosition, List.drop_left]
  rw [codeUnitsAt, Reader.startingAt, hTake, hDrop, ← Reader.map_spotsFrom, hLater, hBehind]
  rfl

theorem codeSpots_ascending (text : Text) :
    (codeSpots text).Pairwise fun spot later => spot.position < later.position := by
  have hUnits := Reader.codeFrom_ascending Reader.start 0 text
  rw [← Reader.map_spotsFrom, List.pairwise_map] at hUnits
  exact hUnits

/-- The positions on both sides of a place of code. -/
theorem position_lt_of_codeSpots_eq {text : Text} {earlier later : List Spot} {spot : Spot}
    (h : codeSpots text = earlier ++ spot :: later) :
    (∀ other ∈ earlier, other.position < spot.position) ∧
      ∀ other ∈ later, spot.position < other.position := by
  have hAscending := codeSpots_ascending text
  rw [h] at hAscending
  obtain ⟨-, hBehind, hBetween⟩ := List.pairwise_append.mp hAscending
  exact ⟨fun other hOther => hBetween other hOther spot List.mem_cons_self,
    (List.pairwise_cons.mp hBehind).1⟩

theorem mem_codeUnits_iff_spot {text : Text} {position : Nat} {c : Char} :
    (position, c) ∈ codeUnits text ↔
      ∃ spot ∈ codeSpots text, spot.position = position ∧ spot.char = c := by
  rw [← map_codeSpots, List.mem_map]
  simp only [Prod.mk.injEq]

/-- There is one place of code at a position. -/
theorem eq_of_codeSpots_eq {text : Text} {earlier later otherEarlier otherLater : List Spot}
    {spot other : Spot} (h : codeSpots text = earlier ++ spot :: later)
    (hOther : codeSpots text = otherEarlier ++ other :: otherLater)
    (hPosition : spot.position = other.position) :
    earlier = otherEarlier ∧ spot = other ∧ later = otherLater := by
  obtain ⟨hBefore, hBehind⟩ := position_lt_of_codeSpots_eq h
  obtain ⟨hOtherBefore, hOtherBehind⟩ := position_lt_of_codeSpots_eq hOther
  rcases List.append_eq_append_iff.mp (h.symm.trans hOther) with
    ⟨middle, rfl, hMiddle⟩ | ⟨middle, rfl, hMiddle⟩
  · cases middle with
    | nil =>
      obtain ⟨rfl, rfl⟩ := List.cons.inj hMiddle
      exact ⟨(List.append_nil _).symm, rfl, rfl⟩
    | cons first rest =>
      obtain ⟨rfl, -⟩ := List.cons.inj hMiddle
      have hLt := hOtherBefore spot (by simp)
      omega
  · cases middle with
    | nil =>
      obtain ⟨rfl, rfl⟩ := List.cons.inj hMiddle
      exact ⟨List.append_nil _, rfl, rfl⟩
    | cons first rest =>
      obtain ⟨rfl, -⟩ := List.cons.inj hMiddle
      have hLt := hBefore other (by simp)
      omega

/-! ## Depth -/

/-- The number of blocks open behind characters of code. -/
def depthBehind (chars : Text) : Nat := chars.foldl nesting 0

@[simp] theorem depthBehind_nil : depthBehind [] = 0 := rfl

@[simp] theorem depthBehind_concat (chars : Text) (c : Char) :
    depthBehind (chars ++ [c]) = nesting (depthBehind chars) c := by
  simp [depthBehind]

theorem depthAt?_of_codeSpots_eq {text : Text} {earlier later : List Spot} {spot : Spot}
    (h : codeSpots text = earlier ++ spot :: later) :
    depthAt? text spot.position = some (depthBehind (earlier.map Spot.char)) := by
  have hUnit : (spot.position, spot.char) ∈ codeUnits text :=
    mem_codeUnits_iff_spot.mpr ⟨spot, by simp [h], rfl, rfl⟩
  have hCode : isCodeAt text spot.position = true := by
    rw [isCodeAt, regionAt, (mem_codeUnits.mp hUnit).2]
    rfl
  obtain ⟨hBefore, -⟩ := position_lt_of_codeSpots_eq h
  have hTake : (codeUnits text).takeWhile (fun unit => unit.1 < spot.position) =
      earlier.map fun spot => (spot.position, spot.char) := by
    rw [← map_codeSpots, h, List.map_append, List.takeWhile_append_of_pos]
    · simp
    · simpa using hBefore
  rw [depthAt?, if_pos hCode, hTake, depthBehind, List.foldl_map, List.foldl_map]

/-- A position with a depth that is not the end of the text is a place of code. -/
theorem exists_of_depthAt?_eq_some {text : Text} {position depth : Nat}
    (hPosition : position < text.length) (h : depthAt? text position = some depth) :
    ∃ earlier spot later, codeSpots text = earlier ++ spot :: later ∧ spot.position = position := by
  have hCode : isCodeAt text position = true := by
    unfold depthAt? at h
    split at h
    · assumption
    · cases h
  have hLength : position < (regions text).length := by simpa using hPosition
  have hUnit : (position, text[position]) ∈ codeUnits text := by
    refine mem_codeUnits.mpr ⟨List.getElem?_eq_getElem hPosition, ?_⟩
    rw [isCodeAt, regionAt, List.getElem?_eq_getElem hLength] at hCode
    rw [List.getElem?_eq_getElem hLength]
    exact congrArg some (eq_of_beq hCode)
  obtain ⟨spot, hSpot, hEq, -⟩ := mem_codeUnits_iff_spot.mp hUnit
  obtain ⟨earlier, later, hSplit⟩ := List.append_of_mem hSpot
  exact ⟨earlier, spot, later, hSplit, hEq⟩

/-! ## Balanced texts -/

/-- Whether characters close exactly the blocks that they open, and none before it is open. -/
def IsBalanced (chars : Text) : Prop :=
  chars.count '}' = chars.count '{' ∧
    ∀ front, front <+: chars → front.count '}' ≤ front.count '{'

theorem openBlocks_eq_some_iff {depth opened : Nat} {chars : Text} :
    openBlocks depth chars = some opened ↔
      opened + chars.count '}' = depth + chars.count '{' ∧
        ∀ front, front <+: chars → front.count '}' ≤ depth + front.count '{' := by
  induction chars generalizing depth with
  | nil => simp [openBlocks, eq_comm]
  | cons c rest ih =>
    have hFronts (limit : Nat) :
        (∀ front, front <+: c :: rest → front.count '}' ≤ limit + front.count '{') ↔
          ∀ front, front <+: rest → (c :: front).count '}' ≤ limit + (c :: front).count '{' := by
      constructor
      · intro h front hFront
        exact h (c :: front) (List.cons_prefix_cons.mpr ⟨rfl, hFront⟩)
      · intro h front hFront
        rcases List.prefix_cons_iff.mp hFront with rfl | ⟨front, rfl, hRest⟩
        · simp
        · exact h front hRest
    rw [hFronts, openBlocks]
    by_cases hClose : c = '}'
    · subst hClose
      cases depth with
      | zero =>
        simp only [and_self, if_true]
        constructor
        · intro h
          cases h
        · rintro ⟨-, h⟩
          simpa using h [] (List.nil_prefix)
      | succ depth =>
        have hNesting : nesting (depth + 1) '}' = depth := rfl
        rw [if_neg (by simp), hNesting, ih]
        grind
    · by_cases hOpen : c = '{'
      · subst hOpen
        have hNesting : nesting depth '{' = depth + 1 := rfl
        rw [if_neg (by simp), hNesting, ih]
        grind
      · have hNesting : nesting depth c = depth := by simp [nesting, hOpen, hClose]
        rw [if_neg (by simp [hClose]), hNesting, ih]
        simp [hOpen, hClose]

theorem openBlocks_eq_zero_iff {chars : Text} :
    openBlocks 0 chars = some 0 ↔ IsBalanced chars := by
  rw [openBlocks_eq_some_iff, IsBalanced]
  simp only [Nat.zero_add]

/-! ## The match of an opening brace -/

/-- Whether two braces of code open and close the same block. -/
def Matches (text : Text) (opening closing : Nat) : Prop :=
  ∃ front body back,
    codeUnits text = front ++ (opening, '{') :: (body ++ (closing, '}') :: back) ∧
      IsBalanced (body.map Prod.snd)

theorem Matches.lt {text : Text} {opening closing : Nat} (h : Matches text opening closing) :
    opening < closing := by
  obtain ⟨front, body, back, hUnits, -⟩ := h
  have hAscending : (codeUnits text).Pairwise fun first second => first.1 < second.1 :=
    Reader.codeFrom_ascending _ _ _
  rw [hUnits] at hAscending
  obtain ⟨-, hBehind, -⟩ := List.pairwise_append.mp hAscending
  exact (List.pairwise_cons.mp hBehind).1 (closing, '}') (by simp)

/-- The match of a brace, seen from its place. -/
theorem matches_iff_of_codeSpots_eq {text : Text} {earlier later : List Spot} {spot : Spot}
    (h : codeSpots text = earlier ++ spot :: later) (hBrace : spot.char = '{') {closing : Nat} :
    Matches text spot.position closing ↔
      ∃ body back, later.map (fun spot => (spot.position, spot.char)) =
          body ++ (closing, '}') :: back ∧
        openBlocks 0 (body.map Prod.snd) = some 0 := by
  have hUnits : codeUnits text = earlier.map (fun spot => (spot.position, spot.char)) ++
      (spot.position, '{') :: later.map (fun spot => (spot.position, spot.char)) := by
    rw [← map_codeSpots, h, List.map_append, List.map_cons, hBrace]
  constructor
  · rintro ⟨front, body, back, hOther, hBalanced⟩
    rw [← map_codeSpots] at hOther
    obtain ⟨otherEarlier, others, hSplit, -, hOthers⟩ := List.map_eq_append_iff.mp hOther
    obtain ⟨other, otherLater, rfl, hUnit, hLater⟩ := List.map_eq_cons_iff.mp hOthers
    have hPosition : spot.position = other.position := (Prod.mk.inj hUnit).1.symm
    obtain ⟨-, -, rfl⟩ := eq_of_codeSpots_eq h hSplit hPosition
    exact ⟨body, back, hLater, openBlocks_eq_zero_iff.mpr hBalanced⟩
  · rintro ⟨body, back, hLater, hBalanced⟩
    exact ⟨_, body, back, by rw [hUnits, hLater], openBlocks_eq_zero_iff.mp hBalanced⟩

/-- The search within a block counts the blocks in it until it meets the brace that closes it. -/
theorem search_judgeBlock_cons {depth position : Nat} {c : Char} {rest : List (Nat × Char)}
    (h : ¬(c = '}' ∧ depth = 0)) :
    search judgeBlock (depth + 1) ((position, c) :: rest) =
      search judgeBlock (nesting depth c + 1) rest := by
  have hJudge : judgeBlock (depth + 1) c = .go (nesting depth c + 1) := by
    simp only [judgeBlock, nesting]
    grind
  rw [search, hJudge]

/-- The search within a block stops behind a balanced text, at the brace that closes the block. -/
theorem search_judgeBlock_eq_some_iff {depth closing : Nat} {units : List (Nat × Char)} :
    search judgeBlock (depth + 1) units = some closing ↔
      ∃ body back, units = body ++ (closing, '}') :: back ∧
        openBlocks depth (body.map Prod.snd) = some 0 := by
  induction units generalizing depth with
  | nil => simp [search]
  | cons unit rest ih =>
    obtain ⟨position, c⟩ := unit
    by_cases hFound : c = '}' ∧ depth = 0
    · obtain ⟨rfl, rfl⟩ := hFound
      have hSearch : search judgeBlock (0 + 1) ((position, '}') :: rest) = some position := rfl
      rw [hSearch]
      constructor
      · intro h
        cases h
        exact ⟨[], rest, rfl, rfl⟩
      · rintro ⟨body, back, hUnits, hBalanced⟩
        cases body with
        | nil => exact congrArg some (Prod.mk.inj (List.cons.inj hUnits).1).1
        | cons first others =>
          obtain ⟨rfl, -⟩ := List.cons.inj hUnits
          cases hBalanced
    · rw [search_judgeBlock_cons hFound, ih]
      constructor
      · rintro ⟨body, back, rfl, hBalanced⟩
        refine ⟨(position, c) :: body, back, rfl, ?_⟩
        rw [List.map_cons, openBlocks, if_neg hFound]
        exact hBalanced
      · rintro ⟨body, back, hUnits, hBalanced⟩
        cases body with
        | nil =>
          obtain ⟨hFirst, -⟩ := List.cons.inj hUnits
          obtain ⟨-, rfl⟩ := Prod.mk.inj hFirst
          cases hBalanced
          exact absurd ⟨rfl, rfl⟩ hFound
        | cons first others =>
          obtain ⟨rfl, rfl⟩ := List.cons.inj hUnits
          rw [List.map_cons, openBlocks, if_neg hFound] at hBalanced
          exact ⟨others, back, rfl, hBalanced⟩

/-- From an opening brace of code the search finds the brace that matches it. -/
theorem closingBrace?_eq_some_iff {text : Text} {opening closing : Nat}
    (hOpening : (opening, '{') ∈ codeUnits text) :
    closingBrace? text opening = some closing ↔ Matches text opening closing := by
  obtain ⟨spot, hSpot, rfl, hBrace⟩ := mem_codeUnits_iff_spot.mp hOpening
  obtain ⟨earlier, later, h⟩ := List.append_of_mem hSpot
  obtain ⟨front, hText, hPosition, -, hUnits⟩ := exists_of_codeSpots_eq h
  have hChar : text[spot.position]? = some '{' := (mem_codeUnits.mp hOpening).1
  have hSearch : search judgeBlock 0 (codeUnitsAt text spot.position) =
      search judgeBlock 1 (later.map fun spot => (spot.position, spot.char)) := by
    rw [hUnits, List.map_cons, hBrace]
    rfl
  rw [closingBrace?_eq, if_pos hChar, hSearch, matches_iff_of_codeSpots_eq h hBrace]
  exact search_judgeBlock_eq_some_iff

end XdrBindings.Code
