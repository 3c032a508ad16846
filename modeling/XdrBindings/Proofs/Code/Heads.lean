import XdrBindings.Proofs.Code.ClassBody
import XdrBindings.Proofs.Code.Matching
import XdrBindings.Proofs.Text.Trim

/-!
# The heads of classes

A class begins with a head: the keyword `class` with a name, in code outside of all blocks, and the
brace behind it that opens the block of the class.  `IsHead` says that about a text, its code and
the depth of a place, and knows nothing of a search.  A keyword is passed over while an earlier one
waits for its block; what ends the waiting is the next brace or semicolon.

The search reads the code once and keeps the number of open blocks and the keyword that waits.
`Walk.Fits` says what that must be at a position.  One character of code keeps it
(`Walk.fits_next`), and so does any run of the search (`Walk.fits_after`).

## Main results

* `namesClass_iff` — the keyword and its name at a place of code.
* `Walk.fits_after` — what the search knows at a position.
* `isHead_iff` — the search stands in front of an opening brace with a keyword that waits exactly
  if the brace and the keyword are a head.
-/

namespace XdrBindings.Code

/-! ## Names behind a keyword -/

/-- Whether a text is a name that does not begin with a digit. -/
structure IsIdentifier (name : Text) : Prop where
  isName : IsName name
  begins : ∀ c ∈ name.head?, c.isDigit = false

/-- `BeginsWithName ahead blanks name back` says that `ahead` is blanks, a whole name and `back`. -/
structure BeginsWithName (ahead blanks name back : Text) : Prop where
  ahead_eq : ahead = blanks ++ (name ++ back)
  blanks : ∀ c ∈ blanks, Text.isBlank c = true
  identifier : IsIdentifier name
  whole : ∀ c ∈ back.head?, isNameChar c = false

theorem nameAhead_eq_some_iff {ahead name : Text} :
    nameAhead ahead = some name ↔ ∃ blanks back, BeginsWithName ahead blanks name back := by
  constructor
  · intro h
    have hAhead : ahead = ahead.takeWhile Text.isBlank ++ (name ++
        (Text.trimStart ahead).dropWhile isNameChar) ∧ IsIdentifier name := by
      unfold nameAhead at h
      dsimp only at h
      split at h
      · cases h
      · rename_i first rest hTake
        split at h
        · cases h
        · rename_i hDigit
          obtain rfl := Option.some.inj h
          refine ⟨?_, ⟨by rw [hTake]; exact List.cons_ne_nil _ _,
            List.all_eq_true.mp List.all_takeWhile⟩, ?_⟩
          · rw [List.takeWhile_append_dropWhile]
            exact List.takeWhile_append_dropWhile.symm
          · rw [hTake]
            rintro c hc
            cases hc
            simpa using hDigit
    refine ⟨_, _, hAhead.1, List.all_eq_true.mp List.all_takeWhile, hAhead.2, ?_⟩
    intro c hc
    have hHead := List.head?_dropWhile_not isNameChar (Text.trimStart ahead)
    rw [Option.mem_def.mp hc] at hHead
    simpa using hHead
  · rintro ⟨blanks, back, rfl, hBlanks, ⟨⟨hName, hChars⟩, hDigit⟩, hBack⟩
    obtain ⟨first, rest, rfl⟩ := List.exists_cons_of_ne_nil hName
    have hFirst : Text.isBlank first = false := by
      by_contra hBlank
      have hNot := isNameChar_of_isBlank (Bool.not_eq_false _ ▸ hBlank)
      rw [hChars first List.mem_cons_self] at hNot
      cases hNot
    have hTrim : Text.trimStart (blanks ++ (first :: rest ++ back)) = first :: rest ++ back := by
      rw [Text.trimStart_append hBlanks]
      exact Text.trimStart_eq_self hFirst
    have hTake : (first :: rest ++ back).takeWhile isNameChar = first :: rest :=
      Text.takeWhile_append_of_head hChars hBack
    have hFirstDigit : first.isDigit = false := hDigit first rfl
    unfold nameAhead
    dsimp only
    rw [hTrim, hTake]
    simp [hFirstDigit]

/-- What stands at a spot where a declaration begins. -/
theorem Spot.head?_eq_some_iff {spot : Spot} {name : Text} {keyword : Nat} :
    spot.head? = some (name, keyword) ↔
      spot.position = keyword ∧ spot.behind.word = false ∧
        ∃ ahead blanks back, spot.ahead = classWord ++ ahead ∧ blanks ≠ [] ∧
          BeginsWithName ahead blanks name back := by
  have hDrop (ahead : Text) : (classWord ++ ahead).drop classWord.length = ahead := List.drop_left
  constructor
  · intro h
    unfold head? at h
    split at h
    · rename_i hBegins
      obtain ⟨other, hName, hEq⟩ := Option.map_eq_some_iff.mp h
      obtain ⟨rfl, rfl⟩ := Prod.mk.inj hEq
      simp only [beginsWord, Bool.and_eq_true, Bool.not_eq_true'] at hBegins
      obtain ⟨⟨hBehind, hStarts⟩, hEnds⟩ := hBegins
      obtain ⟨ahead, hAhead⟩ := List.isPrefixOf_iff_prefix.mp hStarts
      rw [← hAhead, hDrop] at hName hEnds
      obtain ⟨blanks, back, hParts⟩ := nameAhead_eq_some_iff.mp hName
      refine ⟨rfl, hBehind, ahead, blanks, back, hAhead.symm, ?_, hParts⟩
      -- without a blank the keyword would be part of a longer word
      rintro rfl
      obtain ⟨first, rest, rfl⟩ := List.exists_cons_of_ne_nil hParts.identifier.isName.1
      rw [hParts.ahead_eq] at hEnds
      have hFirst : isNameChar first = false := by simpa using hEnds
      rw [hParts.identifier.isName.2 first List.mem_cons_self] at hFirst
      cases hFirst
    · cases h
  · rintro ⟨rfl, hBehind, ahead, blanks, back, hAhead, hBlanks, hParts⟩
    have hStarts : Text.startsWith (classWord ++ ahead) classWord = true :=
      List.isPrefixOf_iff_prefix.mpr (List.prefix_append _ _)
    have hEnds : ahead.head?.any isNameChar = false := by
      obtain ⟨first, rest, rfl⟩ := List.exists_cons_of_ne_nil hBlanks
      rw [hParts.ahead_eq]
      exact isNameChar_of_isBlank (hParts.blanks first List.mem_cons_self)
    have hName := nameAhead_eq_some_iff.mpr ⟨blanks, back, hParts⟩
    unfold head? beginsWord
    rw [hAhead, hDrop, hBehind, hStarts, hEnds, hName]
    rfl

/-! ## Heads -/

/-- `NamesClass text keyword name` says that the whole word `class` stands at `keyword`, in code
outside of all blocks, and behind it blanks and the whole `name`. -/
structure NamesClass (text : Text) (keyword : Nat) (name : Text) : Prop where
  outside : depthAt? text keyword = some 0
  stands : ∃ front ahead blanks back, text = front ++ (classWord ++ ahead) ∧
    front.length = keyword ∧ (∀ c ∈ front.getLast?, isNameChar c = false) ∧ blanks ≠ [] ∧
      BeginsWithName ahead blanks name back

/-- Whether a place is a brace or semicolon outside of all blocks.  No keyword in front of it waits
any longer behind it. -/
structure EndsHead (text : Text) (place : Nat) : Prop where
  outside : depthAt? text place = some 0
  mark : (place, '{') ∈ codeUnits text ∨ (place, ';') ∈ codeUnits text

/-- Whether no keyword waits for its block at a position: the waiting of each one in front of it
has ended. -/
def IsFree (text : Text) (position : Nat) : Prop :=
  ∀ keyword name, NamesClass text keyword name → keyword < position →
    ∃ place, EndsHead text place ∧ keyword < place ∧ place < position

/-- `Waits text position name keyword` says that at `position` the keyword waits for its block: none
waited before it, and there was neither an opening brace nor a semicolon since. -/
structure Waits (text : Text) (position : Nat) (name : Text) (keyword : Nat) : Prop where
  named : NamesClass text keyword name
  lt : keyword < position
  first : IsFree text keyword
  quiet : ∀ place c, (place, c) ∈ codeUnits text → keyword < place → place < position →
    c ≠ '{' ∧ c ≠ ';'

/-- A keyword with its name and the brace that opens its block, by their positions. -/
structure Head where
  name : Text
  keyword : Nat
  opening : Nat
  deriving DecidableEq, Repr

/-- Whether a class begins with a head: a keyword still waits in front of an opening brace. -/
structure IsHead (text : Text) (head : Head) : Prop where
  opens : (head.opening, '{') ∈ codeUnits text
  waits : Waits text head.opening head.name head.keyword

theorem Waits.not_isFree {text : Text} {position : Nat} {name : Text} {keyword : Nat}
    (h : Waits text position name keyword) : ¬IsFree text position := by
  intro hFree
  obtain ⟨place, hEnds, hAfter, hBefore⟩ := hFree keyword name h.named h.lt
  rcases hEnds.mark with hBrace | hSemicolon
  · exact (h.quiet place '{' hBrace hAfter hBefore).1 rfl
  · exact (h.quiet place ';' hSemicolon hAfter hBefore).2 rfl

/-! ## The keyword at a place of code -/

section Place

variable {text : Text} {earlier later : List Spot} {spot : Spot}
  (hSpots : codeSpots text = earlier ++ spot :: later)

include hSpots

theorem namesClass_iff {name : Text} :
    NamesClass text spot.position name ↔
      depthBehind (earlier.map Spot.char) = 0 ∧ spot.head? = some (name, spot.position) := by
  obtain ⟨front, hText, hPosition, hBehind, -⟩ := exists_of_codeSpots_eq hSpots
  have hDepth := depthAt?_of_codeSpots_eq hSpots
  have hWord : spot.behind.word = front.getLast?.any isNameChar := by
    rw [hBehind, Behind.word_ofText]
  rw [Spot.head?_eq_some_iff]
  constructor
  · rintro ⟨hOutside, other, ahead, blanks, back, hOther, hLength, hLast, hBlanks, hParts⟩
    have hSplit : front ++ spot.ahead = other ++ (classWord ++ ahead) := hText.symm.trans hOther
    obtain ⟨rfl, hAhead⟩ := List.append_inj hSplit (by omega)
    refine ⟨Option.some.inj (hDepth.symm.trans hOutside), rfl, ?_, ahead, blanks, back, hAhead,
      hBlanks, hParts⟩
    rw [hWord]
    cases hEnd : front.getLast? with
    | none => rfl
    | some c => exact hLast c (by rw [hEnd]; rfl)
  · rintro ⟨hZero, -, hNoWord, ahead, blanks, back, hAhead, hBlanks, hParts⟩
    refine ⟨by rw [hDepth, hZero], front, ahead, blanks, back, by rw [hText, hAhead],
      hPosition.symm, ?_, hBlanks, hParts⟩
    intro c hc
    rw [hWord, Option.mem_def.mp hc] at hNoWord
    exact hNoWord

theorem char_of_namesClass {name : Text} (h : NamesClass text spot.position name) :
    spot.char = 'c' := by
  obtain ⟨-, hHead⟩ := (namesClass_iff hSpots).mp h
  obtain ⟨-, -, ahead, -, -, hAhead, -⟩ := Spot.head?_eq_some_iff.mp hHead
  exact (List.cons.inj hAhead).1

theorem endsHead_iff :
    EndsHead text spot.position ↔
      depthBehind (earlier.map Spot.char) = 0 ∧ (spot.char = '{' ∨ spot.char = ';') := by
  have hDepth := depthAt?_of_codeSpots_eq hSpots
  have hUnit : (spot.position, spot.char) ∈ codeUnits text :=
    mem_codeUnits_iff_spot.mpr ⟨spot, by simp [hSpots], rfl, rfl⟩
  have hChar {c : Char} : (spot.position, c) ∈ codeUnits text ↔ spot.char = c := by
    constructor
    · intro h
      have hThere := (mem_codeUnits.mp h).1
      rw [(mem_codeUnits.mp hUnit).1] at hThere
      exact Option.some.inj hThere
    · rintro rfl
      exact hUnit
  constructor
  · rintro ⟨hOutside, hMark⟩
    rw [hChar, hChar] at hMark
    exact ⟨Option.some.inj (hDepth.symm.trans hOutside), hMark⟩
  · rintro ⟨hZero, hMark⟩
    rw [← hChar, ← hChar] at hMark
    exact ⟨by rw [hDepth, hZero], hMark⟩

end Place

/-- A keyword is a place of code. -/
theorem NamesClass.exists_spot {text : Text} {keyword : Nat} {name : Text}
    (h : NamesClass text keyword name) :
    ∃ earlier spot later, codeSpots text = earlier ++ spot :: later ∧ spot.position = keyword := by
  refine exists_of_depthAt?_eq_some ?_ h.outside
  obtain ⟨front, ahead, blanks, back, hText, hLength, -⟩ := h.stands
  have hWord : classWord.length = 5 := rfl
  rw [hText, List.length_append, List.length_append, hWord]
  omega

/-! ## Over one character of code -/

section Step

variable {text : Text} {earlier later : List Spot} {spot : Spot} {next : Nat}
  (hSpots : codeSpots text = earlier ++ spot :: later) (hNext : spot.position < next)
  (hLater : ∀ other ∈ later, next ≤ other.position)

include hSpots hNext hLater

/-- What is code in front of the next position is code up to the one in front of it. -/
theorem position_le_of_lt_next {other : Spot} (hOther : other ∈ codeSpots text)
    (hLt : other.position < next) : other.position ≤ spot.position := by
  obtain ⟨hBefore, -⟩ := position_lt_of_codeSpots_eq hSpots
  rw [hSpots] at hOther
  rcases List.mem_append.mp hOther with hEarlier | hRest
  · exact Nat.le_of_lt (hBefore other hEarlier)
  · rcases List.mem_cons.mp hRest with rfl | hMem
    · exact Nat.le_refl _
    · have hLe := hLater other hMem
      omega

theorem NamesClass.le_of_lt_next {keyword : Nat} {name : Text} (h : NamesClass text keyword name)
    (hLt : keyword < next) : keyword ≤ spot.position := by
  obtain ⟨front, other, back, hOther, rfl⟩ := h.exists_spot
  exact position_le_of_lt_next hSpots hNext hLater (by simp [hOther]) hLt

/-- A place that ends all waiting. -/
theorem isFree_next_of_endsHead (h : EndsHead text spot.position) : IsFree text next := by
  intro keyword name hNames hLt
  refine ⟨spot.position, h, ?_, hNext⟩
  have hLe := hNames.le_of_lt_next hSpots hNext hLater hLt
  rcases Nat.lt_or_eq_of_le hLe with hBefore | rfl
  · exact hBefore
  · have hKeyword := char_of_namesClass hSpots hNames
    obtain ⟨-, hMark⟩ := (endsHead_iff hSpots).mp h
    rw [hKeyword] at hMark
    exact absurd hMark (by decide)

/-- A place where no class is named leaves nothing waiting. -/
theorem isFree_next (h : IsFree text spot.position)
    (hNone : ∀ name, ¬NamesClass text spot.position name) : IsFree text next := by
  intro keyword name hNames hLt
  have hLe := hNames.le_of_lt_next hSpots hNext hLater hLt
  rcases Nat.lt_or_eq_of_le hLe with hBefore | rfl
  · obtain ⟨place, hEnds, hAfter, hPlace⟩ := h keyword name hNames hBefore
    exact ⟨place, hEnds, hAfter, by omega⟩
  · exact absurd hNames (hNone name)

/-- Behind a place that is neither brace nor semicolon the same keyword waits, or the one that
stands there. -/
theorem waits_next_iff (hQuiet : spot.char ≠ '{' ∧ spot.char ≠ ';') {name : Text}
    {keyword : Nat} :
    Waits text next name keyword ↔ Waits text spot.position name keyword ∨
      keyword = spot.position ∧ NamesClass text spot.position name ∧
        IsFree text spot.position := by
  constructor
  · intro h
    have hLe := h.named.le_of_lt_next hSpots hNext hLater h.lt
    rcases Nat.lt_or_eq_of_le hLe with hBefore | rfl
    · refine .inl ⟨h.named, hBefore, h.first, fun place c hUnit hAfter hPlace => ?_⟩
      exact h.quiet place c hUnit hAfter (by omega)
    · exact .inr ⟨rfl, h.named, h.first⟩
  · have hHere {place : Nat} {c : Char} (hUnit : (place, c) ∈ codeUnits text)
        (hAfter : spot.position ≤ place) (hPlace : place < next) : c ≠ '{' ∧ c ≠ ';' := by
      obtain ⟨other, hOther, rfl, rfl⟩ := mem_codeUnits_iff_spot.mp hUnit
      have hLe := position_le_of_lt_next hSpots hNext hLater hOther hPlace
      obtain ⟨front, back, hSplit⟩ := List.append_of_mem hOther
      obtain ⟨-, rfl, -⟩ := eq_of_codeSpots_eq hSpots hSplit (by omega)
      exact hQuiet
    rintro (h | ⟨rfl, hNames, hFree⟩)
    · refine ⟨h.named, Nat.lt_trans h.lt hNext, h.first, fun place c hUnit hAfter hPlace => ?_⟩
      by_cases hBefore : place < spot.position
      · exact h.quiet place c hUnit hAfter hBefore
      · exact hHere hUnit (by omega) hPlace
    · exact ⟨hNames, hNext, hFree, fun place c hUnit hAfter hPlace =>
        hHere hUnit (Nat.le_of_lt hAfter) hPlace⟩

end Step

/-! ## What the search knows -/

namespace Walk

/-- Whether the search stands right at a position where `opened` blocks are open. -/
def Fits (text : Text) (position opened : Nat) : Walk → Prop
  | .outside depth none => opened = depth ∧ IsFree text position
  | .outside depth (some head) => opened = 0 ∧ depth = 0 ∧
      ∀ name keyword, Waits text position name keyword ↔ (name, keyword) = head
  | .inside _ _ _ depth => opened = depth + 1 ∧ IsFree text position

section Step

variable {text : Text} {earlier later : List Spot} {spot : Spot} {next : Nat}
  (hSpots : codeSpots text = earlier ++ spot :: later) (hNext : spot.position < next)
  (hLater : ∀ other ∈ later, next ≤ other.position)

include hSpots hNext hLater

/-- Outside of classes, with nothing waiting. -/
theorem fits_next_of_free {depth : Nat} (hDepth : depthBehind (earlier.map Spot.char) = depth)
    (hFree : IsFree text spot.position) :
    (stepOutside depth none spot).Fits text next (nesting depth spot.char) := by
  have hNone (hc : spot.char ≠ 'c') (name : Text) : ¬NamesClass text spot.position name :=
    fun hNames => hc (char_of_namesClass hSpots hNames)
  by_cases hOpen : spot.char = '{'
  · have hStep : stepOutside depth none spot = .outside (depth + 1) none := by
      simp only [stepOutside, if_pos hOpen]
    rw [hStep, hOpen]
    exact ⟨rfl, isFree_next hSpots hNext hLater hFree (hNone (by rw [hOpen]; decide))⟩
  by_cases hClose : spot.char = '}'
  · have hStep : stepOutside depth none spot = .outside (depth - 1) none := by
      simp only [stepOutside, if_neg hOpen, if_pos hClose]
    rw [hStep, hClose]
    exact ⟨rfl, isFree_next hSpots hNext hLater hFree (hNone (by rw [hClose]; decide))⟩
  have hNesting : nesting depth spot.char = depth := by simp only [nesting, hOpen, hClose, if_false]
  rw [hNesting]
  by_cases hWaits : depth = 0 ∧ spot.char ≠ ';' ∧ spot.head?.isSome
  · obtain ⟨rfl, hSemicolon, hSome⟩ := hWaits
    obtain ⟨⟨name, keyword⟩, hHead⟩ := Option.isSome_iff_exists.mp hSome
    obtain rfl : spot.position = keyword := (Spot.of_head? hHead).1
    have hStep : stepOutside 0 none spot = .outside 0 (some (name, spot.position)) := by
      simp [stepOutside, hOpen, hClose, hSemicolon, hHead]
    rw [hStep]
    refine ⟨rfl, rfl, fun other place => ?_⟩
    rw [waits_next_iff hSpots hNext hLater ⟨hOpen, hSemicolon⟩]
    constructor
    · rintro (hOther | ⟨rfl, hNames, -⟩)
      · exact absurd hFree hOther.not_isFree
      · obtain ⟨-, hSame⟩ := (namesClass_iff hSpots).mp hNames
        exact Option.some.inj (hSame.symm.trans hHead)
    · intro hSame
      obtain ⟨rfl, rfl⟩ := Prod.mk.inj hSame
      exact .inr ⟨rfl, (namesClass_iff hSpots).mpr ⟨hDepth, hHead⟩, hFree⟩
  · have hStep : stepOutside depth none spot = .outside depth none := by
      simp only [stepOutside, if_neg hOpen, if_neg hClose]
      split
      · rfl
      · rename_i hSemicolon
        split
        · rename_i hZero
          have hHead : spot.head? = none := by
            by_contra hSome
            exact hWaits ⟨hZero.1, fun h => hSemicolon ⟨h, hZero.1⟩,
              Option.isSome_iff_ne_none.mpr hSome⟩
          rw [hHead]
        · rfl
    rw [hStep]
    refine ⟨rfl, isFree_next hSpots hNext hLater hFree fun name hNames => hWaits ?_⟩
    obtain ⟨hZero, hHead⟩ := (namesClass_iff hSpots).mp hNames
    have hKeyword := char_of_namesClass hSpots hNames
    exact ⟨hDepth.symm.trans hZero, by rw [hKeyword]; decide, by rw [hHead]; rfl⟩

/-- Outside of classes, with a keyword that waits. -/
theorem fits_next_of_waits {head : Text × Nat}
    (hDepth : depthBehind (earlier.map Spot.char) = 0)
    (hWaits : ∀ name keyword, Waits text spot.position name keyword ↔ (name, keyword) = head) :
    (stepOutside 0 (some head) spot).Fits text next (nesting 0 spot.char) := by
  obtain ⟨name, keyword⟩ := head
  have hWaiting : Waits text spot.position name keyword := (hWaits name keyword).mpr rfl
  by_cases hOpen : spot.char = '{'
  · have hStep : stepOutside 0 (some (name, keyword)) spot =
        .inside name keyword spot.position 0 := by
      simp only [stepOutside, if_pos hOpen]
    rw [hStep, hOpen]
    exact ⟨rfl, isFree_next_of_endsHead hSpots hNext hLater
      ((endsHead_iff hSpots).mpr ⟨hDepth, .inl hOpen⟩)⟩
  have hNesting : nesting 0 spot.char = 0 := by simp [nesting, hOpen]
  rw [hNesting]
  by_cases hSemicolon : spot.char = ';'
  · have hStep : stepOutside 0 (some (name, keyword)) spot = .outside 0 none := by
      simp [stepOutside, hSemicolon]
    rw [hStep]
    exact ⟨rfl, isFree_next_of_endsHead hSpots hNext hLater
      ((endsHead_iff hSpots).mpr ⟨hDepth, .inr hSemicolon⟩)⟩
  · have hStep : stepOutside 0 (some (name, keyword)) spot = .outside 0 (some (name, keyword)) := by
      simp [stepOutside, hOpen, hSemicolon]
    rw [hStep]
    refine ⟨rfl, rfl, fun other place => ?_⟩
    rw [waits_next_iff hSpots hNext hLater ⟨hOpen, hSemicolon⟩, hWaits]
    constructor
    · rintro (hSame | ⟨-, -, hFree⟩)
      · exact hSame
      · exact absurd hFree hWaiting.not_isFree
    · exact .inl

/-- One character of code keeps what the search knows. -/
theorem fits_next {walk : Walk}
    (h : walk.Fits text spot.position (depthBehind (earlier.map Spot.char))) :
    (walk.next spot).Fits text next (depthBehind ((earlier ++ [spot]).map Spot.char)) := by
  rw [List.map_append, List.map_singleton, depthBehind_concat]
  match walk, h with
  | .outside depth none, ⟨hDepth, hFree⟩ =>
    rw [hDepth]
    exact fits_next_of_free hSpots hNext hLater hDepth hFree
  | .outside depth (some head), ⟨hOpened, hDepth, hWaits⟩ =>
    rw [hOpened]
    subst hDepth
    exact fits_next_of_waits hSpots hNext hLater hOpened hWaits
  | .inside name keyword opening depth, ⟨hOpened, hFree⟩ =>
    -- within a class no other one is named
    have hFreeNext : IsFree text next := by
      refine isFree_next hSpots hNext hLater hFree fun other hNames => ?_
      obtain ⟨hZero, -⟩ := (namesClass_iff hSpots).mp hNames
      omega
    rw [hOpened, Walk.next]
    split
    · rename_i hClose
      rw [hClose.1, hClose.2]
      exact ⟨rfl, hFreeNext⟩
    · refine ⟨?_, hFreeNext⟩
      simp only [nesting]
      grind

end Step

/-- What the search knows at a position behind a part of the code. -/
theorem fits_after {text : Text} {front back : List Spot} {position : Nat}
    (hSpots : codeSpots text = front ++ back) (hFront : ∀ spot ∈ front, spot.position < position)
    (hBack : ∀ spot ∈ back, position ≤ spot.position) :
    ((Walk.outside 0 none).after front).Fits text position
      (depthBehind (front.map Spot.char)) := by
  induction front using List.reverseRecOn generalizing back position with
  | nil =>
    refine ⟨rfl, fun keyword name hNames hLt => ?_⟩
    obtain ⟨earlier, spot, later, hOther, rfl⟩ := hNames.exists_spot
    have hMem : spot ∈ back := by
      rw [← List.nil_append back, ← hSpots, hOther]
      simp
    have hLe := hBack spot hMem
    omega
  | append_singleton front last ih =>
    have hSplit : codeSpots text = front ++ last :: back := by
      rw [hSpots, List.append_assoc]
      rfl
    obtain ⟨hBefore, hBehind⟩ := position_lt_of_codeSpots_eq hSplit
    have hLast := ih hSplit hBefore fun spot hSpot => by
      rcases List.mem_cons.mp hSpot with rfl | hMem
      · exact Nat.le_refl _
      · exact Nat.le_of_lt (hBehind spot hMem)
    rw [after_append]
    exact fits_next hSplit (hFront last (by simp)) hBack hLast

end Walk

/-! ## Heads in the search -/

/-- What the search knows at a place of code. -/
theorem Walk.fits_at {text : Text} {earlier later : List Spot} {spot : Spot}
    (hSpots : codeSpots text = earlier ++ spot :: later) :
    ((Walk.outside 0 none).after earlier).Fits text spot.position
      (depthBehind (earlier.map Spot.char)) := by
  obtain ⟨hBefore, hBehind⟩ := position_lt_of_codeSpots_eq hSpots
  refine fits_after hSpots hBefore fun other hOther => ?_
  rcases List.mem_cons.mp hOther with rfl | hMem
  · exact Nat.le_refl _
  · exact Nat.le_of_lt (hBehind other hMem)

/-- A keyword waits in a text exactly if it waits in the search. -/
theorem waits_iff {text : Text} {earlier later : List Spot} {spot : Spot}
    (hSpots : codeSpots text = earlier ++ spot :: later) {name : Text} {keyword : Nat} :
    Waits text spot.position name keyword ↔
      (Walk.outside 0 none).after earlier = .outside 0 (some (name, keyword)) := by
  have hFits := Walk.fits_at hSpots
  match hWalk : (Walk.outside 0 none).after earlier with
  | .outside depth none =>
    rw [hWalk] at hFits
    exact ⟨fun h => absurd hFits.2 h.not_isFree, fun h => by cases h⟩
  | .outside depth (some head) =>
    rw [hWalk] at hFits
    obtain ⟨-, rfl, hWaits⟩ := hFits
    rw [hWaits]
    constructor
    · rintro rfl
      rfl
    · intro h
      cases h
      rfl
  | .inside other place opening depth =>
    rw [hWalk] at hFits
    exact ⟨fun h => absurd hFits.2 h.not_isFree, fun h => by cases h⟩

theorem isHead_iff {text : Text} {head : Head} :
    IsHead text head ↔ ∃ front brace back, codeSpots text = front ++ brace :: back ∧
      (Walk.outside 0 none).after front = .outside 0 (some (head.name, head.keyword)) ∧
      brace.char = '{' ∧ brace.position = head.opening := by
  constructor
  · rintro ⟨hOpens, hWaits⟩
    obtain ⟨brace, hBrace, hPosition, hChar⟩ := mem_codeUnits_iff_spot.mp hOpens
    obtain ⟨front, back, hSpots⟩ := List.append_of_mem hBrace
    rw [← hPosition] at hWaits
    exact ⟨front, brace, back, hSpots, (waits_iff hSpots).mp hWaits, hChar, hPosition⟩
  · rintro ⟨front, brace, back, hSpots, hWalk, hChar, hPosition⟩
    have hWaits := (waits_iff hSpots).mpr hWalk
    rw [hPosition] at hWaits
    exact ⟨mem_codeUnits_iff_spot.mpr ⟨brace, by simp [hSpots], hPosition, hChar⟩, hWaits⟩

/-- The block of a class opens outside of all blocks. -/
theorem IsHead.depthAt?_opening {text : Text} {head : Head} (h : IsHead text head) :
    depthAt? text head.opening = some 0 := by
  obtain ⟨front, brace, back, hSpots, hWalk, -, hPosition⟩ := isHead_iff.mp h
  have hFits := Walk.fits_at hSpots
  rw [hWalk] at hFits
  rw [← hPosition, depthAt?_of_codeSpots_eq hSpots, hFits.1]

/-- The keyword of a head stands behind the opening brace of each earlier head. -/
theorem IsHead.opening_lt_keyword {text : Text} {head later : Head} (h : IsHead text head)
    (hLater : IsHead text later) (hLt : head.opening < later.opening) :
    head.opening < later.keyword := by
  by_contra hNot
  rcases Nat.lt_or_eq_of_le (Nat.le_of_not_lt hNot) with hBefore | hSame
  · exact (hLater.waits.quiet head.opening '{' h.opens hBefore hLt).1 rfl
  · -- the keyword is not a brace
    obtain ⟨front, brace, back, hSpots, -, hChar, hPosition⟩ := isHead_iff.mp h
    have hNames := hLater.waits.named
    rw [hSame, ← hPosition] at hNames
    have hKeyword := char_of_namesClass hSpots hNames
    rw [hChar] at hKeyword
    cases hKeyword

end XdrBindings.Code
