import Mathlib.Data.Nat.Find
import XdrBindings.Proofs.Code.Matching

/-!
# Balance behind an opening brace

Reading may begin at any place of code: a reader that knows no more than that it stands in code
there reports what a reader of the whole text reports from there on.  So the search for a closing
brace, which begins at the opening one, can be compared with the depth of a place, which is counted
from the beginning of the text.  The search stops at the first place of code where the braces from
the opening one on balance, and up to there the depth stays above that of the opening brace, however
many braces in front of it close nothing.

## Main results

* `codeUnitsAt_eq_filter` — what is reported from a place of code on.
* `matches_iff_isFirstBalance` — a brace is matched where the braces balance first.
* `le_depthAt?_of_matches`, `lt_depthAt?_of_matches` — the depth between two braces that match.
* `closingBrace?_decides_balance` — reading and searching from a place of code on.
-/

namespace XdrBindings.Code

/-! ## Reading from a place of code on -/

theorem codeUnitsAt_eq_filter {text : Text} {position : Nat} {c : Char}
    (h : (position, c) ∈ codeUnits text) :
    codeUnitsAt text position = (codeUnits text).filter fun unit => position ≤ unit.1 := by
  obtain ⟨spot, hSpot, rfl, -⟩ := mem_codeUnits_iff_spot.mp h
  obtain ⟨earlier, later, hSplit⟩ := List.append_of_mem hSpot
  obtain ⟨hBefore, hBehind⟩ := position_lt_of_codeSpots_eq hSplit
  obtain ⟨-, -, -, -, hUnits⟩ := exists_of_codeSpots_eq hSplit
  have hEarlier : (earlier.map fun spot => (spot.position, spot.char)).filter
      (fun unit => spot.position ≤ unit.1) = [] := by
    simpa [List.filter_eq_nil_iff] using hBefore
  have hLater : ((spot :: later).map fun spot => (spot.position, spot.char)).filter
      (fun unit => spot.position ≤ unit.1) =
        (spot :: later).map fun spot => (spot.position, spot.char) := by
    simpa [List.filter_eq_self] using fun other hOther => Nat.le_of_lt (hBehind other hOther)
  rw [hUnits, ← map_codeSpots, hSplit, List.map_append, List.filter_append, hEarlier, hLater,
    List.nil_append]

/-! ## The first balance -/

/-- Whether the code from one position through another opens as many blocks as it closes. -/
def Balances (text : Text) (opening closing : Nat) : Prop :=
  let chars := ((codeUnits text).filter fun unit =>
    opening ≤ unit.1 ∧ unit.1 ≤ closing).map Prod.snd
  chars.count '{' = chars.count '}'

/-- Whether a position is the first one of code behind another at which the braces balance. -/
structure IsFirstBalance (text : Text) (opening closing : Nat) : Prop where
  code : ∃ c, (closing, c) ∈ codeUnits text
  lt : opening < closing
  balances : Balances text opening closing
  first : ∀ unit ∈ codeUnits text, opening < unit.1 → unit.1 < closing →
    ¬Balances text opening unit.1

/-- If the braces balance somewhere behind a position, there is a first place where they do. -/
theorem exists_isFirstBalance {text : Text} {opening : Nat} {unit : Nat × Char}
    (hUnit : unit ∈ codeUnits text) (hLt : opening < unit.1)
    (hBalances : Balances text opening unit.1) :
    ∃ closing, IsFirstBalance text opening closing := by
  classical
  let ComesOut (place : Nat) : Prop :=
    (∃ c, (place, c) ∈ codeUnits text) ∧ opening < place ∧ Balances text opening place
  have hSome : ∃ place, ComesOut place := ⟨unit.1, ⟨unit.2, hUnit⟩, hLt, hBalances⟩
  obtain ⟨hCode, hBehind, hEven⟩ := Nat.find_spec hSome
  refine ⟨Nat.find hSome, hCode, hBehind, hEven, fun other hOther hGt hBefore hAlso => ?_⟩
  exact Nat.find_min hSome hBefore ⟨⟨other.2, hOther⟩, hGt, hAlso⟩

/-- Braces that never come out even behind an opening one leave it open throughout. -/
theorem count_le_of_ne {chars : Text}
    (h : ∀ front c, front ++ [c] <+: chars →
      (front ++ [c]).count '{' + 1 ≠ (front ++ [c]).count '}') :
    ∀ front, front <+: chars → front.count '}' ≤ front.count '{' := by
  intro front hFront
  induction front using List.reverseRecOn with
  | nil => simp
  | append_singleton front c ih =>
    have hRest := ih ((List.prefix_append front [c]).trans hFront)
    have hNe := h front c hFront
    rw [List.count_append, List.count_append] at hNe ⊢
    have hClose : [c].count '}' ≤ 1 := List.count_le_length
    omega

/-- The balance at a place of code behind an opening brace, by the code between the two. -/
theorem balances_iff {text : Text} {front body back : List (Nat × Char)} {opening closing : Nat}
    {c : Char}
    (h : codeUnits text = front ++ (opening, '{') :: (body ++ (closing, c) :: back)) :
    Balances text opening closing ↔
      (body.map Prod.snd ++ [c]).count '{' + 1 = (body.map Prod.snd ++ [c]).count '}' := by
  have hAscending : (codeUnits text).Pairwise fun first second => first.1 < second.1 :=
    Reader.codeFrom_ascending _ _ _
  rw [h] at hAscending
  obtain ⟨-, hRest, hFront⟩ := List.pairwise_append.mp hAscending
  obtain ⟨hOpening, hBehind⟩ := List.pairwise_cons.mp hRest
  obtain ⟨-, hClosing, hBody⟩ := List.pairwise_append.mp hBehind
  have hBack := (List.pairwise_cons.mp hClosing).1
  let between (unit : Nat × Char) : Bool := opening ≤ unit.1 ∧ unit.1 ≤ closing
  have hNoFront : front.filter between = [] := by
    refine List.filter_eq_nil_iff.mpr fun unit hUnit => ?_
    have hLt := hFront unit hUnit (opening, '{') List.mem_cons_self
    simp only [between, decide_eq_true_eq]
    omega
  have hNoBack : back.filter between = [] := by
    refine List.filter_eq_nil_iff.mpr fun unit hUnit => ?_
    have hLt := hBack unit hUnit
    simp only [between, decide_eq_true_eq]
    omega
  have hAllBody : body.filter between = body := by
    refine List.filter_eq_self.mpr fun unit hUnit => ?_
    have hLt := hOpening unit (List.mem_append_left _ hUnit)
    have hGt := hBody unit hUnit (closing, c) List.mem_cons_self
    simp only [between, decide_eq_true_eq]
    omega
  have hEnds : opening ≤ closing := Nat.le_of_lt (hOpening (closing, c) (by simp))
  have hFilter : (codeUnits text).filter between = (opening, '{') :: (body ++ [(closing, c)]) := by
    rw [h, List.filter_append, hNoFront, List.nil_append, List.filter_cons_of_pos,
      List.filter_append, hAllBody, List.filter_cons_of_pos, hNoBack]
    · simpa [between] using hEnds
    · simpa [between] using hEnds
  unfold Balances
  dsimp only
  rw [show (codeUnits text).filter (fun unit => opening ≤ unit.1 ∧ unit.1 ≤ closing) = _
    from hFilter]
  simp only [List.map_cons, List.map_append, List.map_nil, List.count_cons_self]
  rw [List.count_cons_of_ne (by decide)]

/-- Every place of code behind another one cuts the code of a text. -/
theorem exists_codeUnits_eq {text : Text} {opening closing : Nat} {c : Char}
    (hOpening : (opening, '{') ∈ codeUnits text) (hClosing : (closing, c) ∈ codeUnits text)
    (hLt : opening < closing) :
    ∃ front body back,
      codeUnits text = front ++ (opening, '{') :: (body ++ (closing, c) :: back) := by
  obtain ⟨front, behind, hSplit⟩ := List.append_of_mem hOpening
  have hAscending : (codeUnits text).Pairwise fun first second => first.1 < second.1 :=
    Reader.codeFrom_ascending _ _ _
  rw [hSplit] at hAscending hClosing
  obtain ⟨-, -, hFront⟩ := List.pairwise_append.mp hAscending
  have hBehind : (closing, c) ∈ behind := by
    rcases List.mem_append.mp hClosing with hMem | hMem
    · have hGt := hFront (closing, c) hMem (opening, '{') List.mem_cons_self
      dsimp only at hGt
      omega
    · rcases List.mem_cons.mp hMem with hEq | hRest
      · cases hEq
        omega
      · exact hRest
  obtain ⟨body, back, rfl⟩ := List.append_of_mem hBehind
  exact ⟨front, body, back, hSplit⟩

/-- What stands between two places of code. -/
theorem between_iff {text : Text} {front body back : List (Nat × Char)} {first last : Nat × Char}
    (h : codeUnits text = front ++ first :: (body ++ last :: back)) {unit : Nat × Char} :
    unit ∈ codeUnits text ∧ first.1 < unit.1 ∧ unit.1 < last.1 ↔ unit ∈ body := by
  have hAscending : (codeUnits text).Pairwise fun first second => first.1 < second.1 :=
    Reader.codeFrom_ascending _ _ _
  rw [h] at hAscending ⊢
  obtain ⟨-, hRest, hFront⟩ := List.pairwise_append.mp hAscending
  obtain ⟨hFirst, hBehind⟩ := List.pairwise_cons.mp hRest
  obtain ⟨-, hLast, hBody⟩ := List.pairwise_append.mp hBehind
  have hBack := (List.pairwise_cons.mp hLast).1
  constructor
  · rintro ⟨hUnit, hGt, hLt⟩
    simp only [List.mem_append, List.mem_cons] at hUnit
    rcases hUnit with hMem | rfl | hMem | rfl | hMem
    · have hBefore := hFront unit hMem first List.mem_cons_self
      omega
    · omega
    · exact hMem
    · omega
    · have hAfter := hBack unit hMem
      omega
  · intro hUnit
    exact ⟨by simp [hUnit], hFirst unit (List.mem_append_left _ hUnit),
      hBody unit hUnit last List.mem_cons_self⟩

/-- The braces balance at the one that matches an opening one, and not between the two. -/
theorem Matches.isFirstBalance {text : Text} {opening closing : Nat}
    (h : Matches text opening closing) : IsFirstBalance text opening closing := by
  have hLt := h.lt
  obtain ⟨front, body, back, hUnits, hBalanced, hInside⟩ := h
  refine ⟨⟨'}', by simp [hUnits]⟩, hLt, ?_, fun unit hUnit hGt hBefore hPlace => ?_⟩
  · rw [balances_iff hUnits]
    simp [hBalanced]
  · -- between the two braces more blocks are open than closed
    obtain ⟨inner, rest, rfl⟩ :=
      List.append_of_mem ((between_iff hUnits).mp ⟨hUnit, hGt, hBefore⟩)
    rw [List.append_assoc, List.cons_append] at hUnits
    have hPrefix := hInside (inner.map Prod.snd ++ [unit.2]) (by simp)
    have hEven := (balances_iff hUnits).mp hPlace
    omega

/-- Where the braces balance first, the opening brace is matched. -/
theorem IsFirstBalance.matches {text : Text} {opening closing : Nat}
    (h : IsFirstBalance text opening closing) (hOpening : (opening, '{') ∈ codeUnits text) :
    Matches text opening closing := by
  obtain ⟨⟨c, hClosing⟩, hLt, hBalances, hFirst⟩ := h
  obtain ⟨front, body, back, hUnits⟩ := exists_codeUnits_eq hOpening hClosing hLt
  have hInside : ∀ chars, chars <+: body.map Prod.snd → chars.count '}' ≤ chars.count '{' := by
    refine count_le_of_ne fun chars d hPrefix hEven => ?_
    obtain ⟨others, hBody⟩ := hPrefix
    rw [List.append_assoc] at hBody
    obtain ⟨inner, behind, rfl, rfl, hBehind⟩ := List.map_eq_append_iff.mp hBody.symm
    obtain ⟨unit, rest, rfl, rfl, -⟩ := List.map_eq_cons_iff.mp hBehind
    obtain ⟨hUnit, hGt, hBefore⟩ :=
      (between_iff hUnits).mpr (by simp : unit ∈ inner ++ unit :: rest)
    rw [List.append_assoc, List.cons_append] at hUnits
    exact hFirst unit hUnit hGt hBefore ((balances_iff hUnits).mpr hEven)
  have hCounts := (balances_iff hUnits).mp hBalances
  have hAll := hInside _ (List.prefix_refl _)
  rw [List.count_append, List.count_append] at hCounts
  -- the last character must close a block, and the rest comes out even
  have hClose : c = '}' := by
    by_contra hNe
    rw [List.count_singleton, List.count_singleton] at hCounts
    simp [hNe] at hCounts
    omega
  subst hClose
  refine ⟨front, body, back, hUnits, ?_, hInside⟩
  have hOne : ['}'].count '}' = 1 := rfl
  have hNone : ['}'].count '{' = 0 := rfl
  omega

/-- An opening brace is matched at the first place of code where the braces balance. -/
theorem matches_iff_isFirstBalance {text : Text} {opening closing : Nat}
    (hOpening : (opening, '{') ∈ codeUnits text) :
    Matches text opening closing ↔ IsFirstBalance text opening closing :=
  ⟨Matches.isFirstBalance, fun h => h.matches hOpening⟩

/-! ## The depth behind an opening brace -/

theorem depthBehind_append (front back : Text) :
    depthBehind (front ++ back) = back.foldl nesting (depthBehind front) := by
  rw [depthBehind, depthBehind, List.foldl_append]

theorem foldl_nesting_of_openBlocks {depth opened : Nat} {chars : Text}
    (h : openBlocks depth chars = some opened) : chars.foldl nesting depth = opened := by
  induction chars generalizing depth with
  | nil => exact Option.some.inj h
  | cons c rest ih =>
    rw [openBlocks] at h
    split at h
    · cases h
    · exact ih h

/-- The depth at a place of code, by the code in front of it. -/
theorem depthAt?_of_codeUnits_eq {text : Text} {front back : List (Nat × Char)}
    {unit : Nat × Char} (h : codeUnits text = front ++ unit :: back) :
    depthAt? text unit.1 = some (depthBehind (front.map Prod.snd)) := by
  rw [← map_codeSpots] at h
  obtain ⟨earlier, others, hSplit, rfl, hOthers⟩ := List.map_eq_append_iff.mp h
  obtain ⟨spot, later, rfl, rfl, -⟩ := List.map_eq_cons_iff.mp hOthers
  rw [depthAt?_of_codeSpots_eq hSplit, List.map_map]
  rfl

/-- The depth within a block, by the braces in front of it there. -/
theorem depthAt?_within {text : Text} {front body back inner rest : List (Nat × Char)}
    {opening : Nat} {unit : Nat × Char}
    (hUnits : codeUnits text = front ++ (opening, '{') :: (body ++ back))
    (hBalanced : IsBalanced (body.map Prod.snd)) (hPrefix : inner <+: body)
    (hSplit : body ++ back = inner ++ unit :: rest) :
    depthAt? text unit.1 = some (depthBehind (front.map Prod.snd) + 1 +
      ((inner.map Prod.snd).count '{' - (inner.map Prod.snd).count '}')) := by
  have hChars : inner.map Prod.snd <+: body.map Prod.snd := hPrefix.map Prod.snd
  have hLe := hBalanced.2 _ hChars
  have hOpen : openBlocks 0 (inner.map Prod.snd) =
      some ((inner.map Prod.snd).count '{' - (inner.map Prod.snd).count '}') :=
    openBlocks_eq_some_iff.mpr
      ⟨by omega, fun chars hFront => by simpa using hBalanced.2 chars (hFront.trans hChars)⟩
  have hFold := foldl_nesting_of_openBlocks
    (openBlocks_add hOpen (depthBehind (front.map Prod.snd) + 1))
  have hSame : codeUnits text = (front ++ (opening, '{') :: inner) ++ unit :: rest := by
    rw [hUnits, hSplit, List.append_assoc, List.cons_append]
  have hBrace : nesting (depthBehind (front.map Prod.snd)) '{' =
      depthBehind (front.map Prod.snd) + 1 := rfl
  rw [Nat.zero_add] at hFold
  rw [depthAt?_of_codeUnits_eq hSame, List.map_append, List.map_cons, depthBehind_append,
    List.foldl_cons, hBrace, hFold, Nat.add_comm]

/-- From behind an opening brace through the brace that matches it every place of code is deeper
than the opening brace, and the closing one is so by one. -/
theorem le_depthAt?_of_matches {text : Text} {opening closing : Nat}
    (h : Matches text opening closing) :
    ∃ depth, depthAt? text opening = some depth ∧ depthAt? text closing = some (depth + 1) ∧
      ∀ unit ∈ codeUnits text, opening < unit.1 → unit.1 ≤ closing →
        ∃ inner, depthAt? text unit.1 = some inner ∧ depth + 1 ≤ inner := by
  obtain ⟨front, body, back, hUnits, hBalanced⟩ := h
  have hClosing := depthAt?_within hUnits hBalanced (List.prefix_refl _) rfl
  refine ⟨_, depthAt?_of_codeUnits_eq hUnits, ?_, fun unit hUnit hGt hLe => ?_⟩
  · rw [hClosing, hBalanced.1, Nat.sub_self, Nat.add_zero]
  · rcases Nat.lt_or_eq_of_le hLe with hLt | hEq
    · obtain ⟨inner, rest, rfl⟩ :=
        List.append_of_mem ((between_iff hUnits).mp ⟨hUnit, hGt, hLt⟩)
      exact ⟨_, depthAt?_within hUnits hBalanced (List.prefix_append _ _)
        (List.append_assoc _ _ _), Nat.le_add_right _ _⟩
    · exact ⟨_, hEq ▸ hClosing, Nat.le_add_right _ _⟩

/-- No brace between two that match closes the block that the first one opens. -/
theorem lt_depthAt?_of_matches {text : Text} {opening closing place depth : Nat}
    (h : Matches text opening closing) (hOpening : depthAt? text opening = some depth)
    (hBrace : (place, '}') ∈ codeUnits text) (hGt : opening < place) (hLt : place < closing) :
    ∃ inner, depthAt? text place = some inner ∧ depth + 1 < inner := by
  obtain ⟨front, body, back, hUnits, hBalanced⟩ := h
  rw [depthAt?_of_codeUnits_eq hUnits] at hOpening
  obtain rfl := Option.some.inj hOpening
  obtain ⟨inner, rest, rfl⟩ := List.append_of_mem ((between_iff hUnits).mp ⟨hBrace, hGt, hLt⟩)
  refine ⟨_, depthAt?_within hUnits hBalanced (List.prefix_append _ _)
    (List.append_assoc _ _ _), ?_⟩
  -- with the brace itself no more blocks are closed than opened
  have hLe := hBalanced.2 (inner.map Prod.snd ++ ['}']) (by simp)
  have hOne : ['}'].count '}' = 1 := rfl
  have hNone : ['}'].count '{' = 0 := rfl
  rw [List.count_append, List.count_append] at hLe
  omega

/-! ## Agreement -/

/-- A reader that starts at a place of code reports what is reported of the whole text from there
on.  From an opening brace the search finds the first place of code behind it at which the braces
balance again, and nothing if they never do.  Up to that place all code is deeper than the opening
brace, and at it by one. -/
theorem closingBrace?_decides_balance {text : Text} {position : Nat} {c : Char}
    (hCode : (position, c) ∈ codeUnits text) :
    codeUnitsAt text position = (codeUnits text).filter (fun unit => position ≤ unit.1) ∧
      (c = '{' →
        (∀ closing, closingBrace? text position = some closing ↔
          IsFirstBalance text position closing) ∧
        (∀ closing, closingBrace? text position = some closing →
          ∃ depth, depthAt? text position = some depth ∧
            depthAt? text closing = some (depth + 1) ∧
            ∀ unit ∈ codeUnits text, position < unit.1 → unit.1 ≤ closing →
              ∃ inner, depthAt? text unit.1 = some inner ∧ depth + 1 ≤ inner) ∧
        (closingBrace? text position = none ↔
          ∀ unit ∈ codeUnits text, position < unit.1 → ¬Balances text position unit.1)) := by
  refine ⟨codeUnitsAt_eq_filter hCode, ?_⟩
  rintro rfl
  have hFirst (closing : Nat) : closingBrace? text position = some closing ↔
      IsFirstBalance text position closing :=
    (closingBrace?_eq_some_iff hCode).trans (matches_iff_isFirstBalance hCode)
  refine ⟨hFirst, fun closing h => le_depthAt?_of_matches ((closingBrace?_eq_some_iff hCode).mp h),
    ?_⟩
  constructor
  · intro hNone unit hUnit hGt hBalances
    obtain ⟨closing, hClosing⟩ := exists_isFirstBalance hUnit hGt hBalances
    rw [(hFirst closing).mpr hClosing] at hNone
    cases hNone
  · intro hNever
    cases hSearch : closingBrace? text position with
    | none => rfl
    | some closing =>
      obtain ⟨⟨d, hUnit⟩, hLt, hBalances, -⟩ := (hFirst closing).mp hSearch
      exact absurd hBalances (hNever (closing, d) hUnit hLt)

/-- A class behind a stray closing brace, with a brace in a comment and a block inside. -/
theorem closingBrace?_decides_balance_stray :
    (10, '{') ∈ codeUnits "\x7d class A \x7b // \x7d\n \x7b \x7d \x7d".toList ∧
      closingBrace? "\x7d class A \x7b // \x7d\n \x7b \x7d \x7d".toList 10 = some 22 ∧
      IsFirstBalance "\x7d class A \x7b // \x7d\n \x7b \x7d \x7d".toList 10 22 := by
  have hCode : (10, '{') ∈ codeUnits "\x7d class A \x7b // \x7d\n \x7b \x7d \x7d".toList := by
    decide +kernel
  have hSearch : closingBrace? "\x7d class A \x7b // \x7d\n \x7b \x7d \x7d".toList 10 =
      some 22 := by
    decide +kernel
  obtain ⟨-, hBrace⟩ := closingBrace?_decides_balance hCode
  exact ⟨hCode, hSearch, ((hBrace rfl).1 22).mp hSearch⟩

end XdrBindings.Code
