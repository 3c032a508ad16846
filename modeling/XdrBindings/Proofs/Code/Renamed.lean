import Mathlib.Data.List.Forall2
import XdrBindings.Code.Rename
import XdrBindings.Proofs.Code.ClassBody
import XdrBindings.Proofs.Text.Trim

/-!
# Renaming as a relation between texts

A text and what renaming makes of it go through the same characters, but for whole words
that are the old name here and the new name there.  Characters that belong to no name stay,
so the lines of the text stay apart, and a line keeps its indentation.

A marker is slashes, a blank and a word.  The slashes and the blank belong to no name, and
the word stays unless a name begins with all of it.

## Main results

* `renamed_renameWord` — renaming one name.
* `Renamed.split` — a character that belongs to no name keeps two parts apart.
* `Renamed.trimStart`, `Renamed.isBlankText_eq` — indentation and blank lines.
* `Renamed.contains_mark` — markers stay.
* `RenamedAll.lines` — the lines of a text behind any number of renames.
-/

namespace XdrBindings.Code

/-! ## Words and blanks -/

theorem isWord_of_isBlank {c : Char} (h : Text.isBlank c = true) : Text.isWord c = false := by
  have hName := isNameChar_of_isBlank h
  unfold Text.isWord
  split
  · simp only [isNameChar, Bool.or_eq_false_iff] at hName
    rw [hName.1.1, hName.1.2]
    rfl
  · rename_i hAscii
    have hWide : ∀ n ∈ [0x85, 0xA0, 0x1680, 0x2000, 0x2001, 0x2002, 0x2003, 0x2004, 0x2005, 0x2006,
        0x2007, 0x2008, 0x2009, 0x200A, 0x2028, 0x2029, 0x202F, 0x205F, 0x3000],
        Text.wordRanges.any (fun range => range.1 ≤ n && n ≤ range.2) = false := by
      decide +kernel
    apply hWide
    simp only [Text.isBlank, Bool.or_eq_true, Bool.and_eq_true, decide_eq_true_eq,
      beq_iff_eq] at h
    simp only [List.mem_cons, List.not_mem_nil, or_false]
    omega

theorem IsName.isBlank_eq_false {name : Text} (h : IsName name) {c : Char} (hc : c ∈ name) :
    Text.isBlank c = false := by
  cases hBlank : Text.isBlank c with
  | false => rfl
  | true =>
    have hNo := isNameChar_of_isBlank hBlank
    rw [h.2 c hc] at hNo
    cases hNo

/-! ## The relation -/

/-- `Renamed old new before text other` says that `other` is `text`, which stands behind the
character `before`, with some of its words that are `old` replaced by `new`. -/
inductive Renamed (old new : Text) : Option Char → Text → Text → Prop
  | nil {before : Option Char} : Renamed old new before [] []
  | keep {before : Option Char} {c : Char} {rest other : Text} :
    Renamed old new (some c) rest other → Renamed old new before (c :: rest) (c :: other)
  | word {before : Option Char} {rest other : Text} :
    Text.isBoundary before old.head? = true → Text.isBoundary old.getLast? rest.head? = true →
    Renamed old new old.getLast? rest other → Renamed old new before (old ++ rest) (new ++ other)

variable {old new : Text}

/-- Of the character in front it only matters whether it belongs to a word. -/
theorem Renamed.behind {before after : Option Char} {text other : Text}
    (h : Renamed old new before text other)
    (hSame : before.any Text.isWord = after.any Text.isWord) :
    Renamed old new after text other := by
  cases h with
  | nil => exact .nil
  | keep hRest => exact .keep hRest
  | word hBefore hAfter hRest =>
    refine .word ?_ hAfter hRest
    unfold Text.isBoundary at hBefore ⊢
    rw [← hSame]
    exact hBefore

theorem replaceWords_drop (drop : Nat) (before : Option Char) (units : List (Char × Region))
    (hDrop : drop ≤ units.length) :
    replaceWords old new drop 0 before units =
      replaceWords old new 0 0
        (((units.take drop).map Prod.fst).getLast?.or before) (units.drop drop) := by
  induction drop generalizing before units with
  | zero => rfl
  | succ drop ih =>
    cases units with
    | nil => simp at hDrop
    | cons unit rest =>
      rw [replaceWords, ih (some unit.1) rest (by simpa using hDrop), List.drop_succ_cons,
        List.take_succ_cons, List.map_cons, List.getLast?_cons]
      congr 1
      cases ((rest.take drop).map Prod.fst).getLast? <;> rfl

/-- A word ahead is what is ahead begins with, between two word boundaries. -/
theorem isWordAhead_iff {before : Option Char} {units : List (Char × Region)} :
    isWordAhead old before units = true ↔ ∃ back, units.map Prod.fst = old ++ back ∧
      Text.isBoundary before old.head? = true ∧
      Text.isBoundary old.getLast? back.head? = true := by
  unfold isWordAhead
  rw [List.map_take, ← List.getElem?_map]
  generalize units.map Prod.fst = text
  simp only [Bool.and_eq_true, beq_iff_eq]
  constructor
  · rintro ⟨⟨hName, hBefore⟩, hAfter⟩
    refine ⟨text.drop old.length, ?_, hBefore, ?_⟩
    · have hParts := List.take_append_drop old.length text
      rw [hName] at hParts
      exact hParts.symm
    · rwa [List.head?_drop]
  · rintro ⟨back, rfl, hBefore, hAfter⟩
    refine ⟨⟨List.take_left, hBefore⟩, ?_⟩
    rwa [← List.head?_drop, List.drop_left]

/-- A word in code is replaced, and what follows it is renamed behind its last character. -/
theorem replaceWords_of_isWordAhead (hOld : old ≠ []) {before : Option Char}
    {units : List (Char × Region)} (hWord : isWordAhead old before units = true)
    (hCode : isCodeAhead old.length units = true) :
    replaceWords old new 0 0 before units =
      new ++ replaceWords old new 0 0 old.getLast? (units.drop old.length) := by
  obtain ⟨back, hText, -, -⟩ := isWordAhead_iff.mp hWord
  obtain ⟨c, name, rfl⟩ := List.exists_cons_of_ne_nil hOld
  cases units with
  | nil => cases hText
  | cons unit rest =>
    rw [List.map_cons, List.cons_append] at hText
    obtain ⟨hFirst, hRest⟩ := List.cons.inj hText
    have hName : (rest.take name.length).map Prod.fst = name := by
      rw [List.map_take, hRest, List.take_left]
    have hFits : name.length ≤ rest.length := by
      have hLengths := congrArg List.length hRest
      rw [List.length_map, List.length_append] at hLengths
      omega
    have hLast : name.getLast?.or (some unit.1) = (c :: name).getLast? := by
      rw [hFirst, List.getLast?_cons, Option.or_some]
    rw [replaceWords, if_pos hWord, if_pos hCode, List.length_cons, Nat.add_sub_cancel,
      replaceWords_drop _ _ _ hFits, hName, hLast, List.drop_succ_cons]

theorem renamed_replaceWords (hOld : old ≠ []) (keep : Nat) (before : Option Char)
    (units : List (Char × Region)) :
    Renamed old new before (units.map Prod.fst) (replaceWords old new 0 keep before units) := by
  induction hLength : units.length using Nat.strongRecOn generalizing keep before units with
  | ind length ih =>
    subst hLength
    cases units with
    | nil =>
      cases keep <;> exact .nil
    | cons unit rest =>
      have hRest (keep : Nat) : Renamed old new (some unit.1) (rest.map Prod.fst)
          (replaceWords old new 0 keep (some unit.1) rest) :=
        ih rest.length (Nat.lt_succ_self _) keep _ rest rfl
      cases keep with
      | succ keep => exact .keep (hRest keep)
      | zero =>
        by_cases hWord : isWordAhead old before (unit :: rest) = true
        · by_cases hCode : isCodeAhead old.length (unit :: rest) = true
          · obtain ⟨back, hText, hBefore, hAfter⟩ := isWordAhead_iff.mp hWord
            have hShorter : ((unit :: rest).drop old.length).length < (unit :: rest).length := by
              have hPos := List.length_pos_iff.mpr hOld
              rw [List.length_drop, List.length_cons]
              omega
            have hBehind := ih _ hShorter 0 old.getLast? _ rfl
            rw [List.map_drop, hText, List.drop_left] at hBehind
            rw [replaceWords_of_isWordAhead hOld hWord hCode, hText]
            exact .word hBefore hAfter hBehind
          · rw [replaceWords, if_pos hWord, if_neg hCode]
            exact .keep (hRest _)
        · rw [replaceWords, if_neg hWord]
          exact .keep (hRest 0)

/-- Renaming a name. -/
theorem renamed_renameWord (hOld : old ≠ []) (text : Text) :
    Renamed old new none text (renameWord old new text) := by
  cases old with
  | nil => exact absurd rfl hOld
  | cons c name =>
    have hUnits : Renamed (c :: name) new none ((units text).map Prod.fst)
        (replaceWords (c :: name) new 0 0 none (units text)) :=
      renamed_replaceWords hOld 0 none (units text)
    rw [units_chars] at hUnits
    exact hUnits

/-! ## Characters that belong to no name -/

/-- A first character that is not the first of the name stays. -/
theorem Renamed.of_cons {before : Option Char} {c : Char} {rest text : Text}
    (h : Renamed old new before (c :: rest) text)
    (hNone : ∀ tail, c :: rest = old ++ tail → Text.isBoundary before old.head? = true →
      Text.isBoundary old.getLast? tail.head? = true → False) :
    ∃ other, text = c :: other ∧ Renamed old new (some c) rest other := by
  generalize hText : c :: rest = whole at h
  cases h with
  | nil => cases hText
  | keep hRest =>
    obtain ⟨rfl, rfl⟩ := List.cons.inj hText
    exact ⟨_, rfl, hRest⟩
  | word hBefore hAfter hRest => exact (hNone _ hText hBefore hAfter).elim

theorem Renamed.of_cons_of_not_mem {before : Option Char} {c : Char} {rest text : Text}
    (h : Renamed old new before (c :: rest) text) (hOld : old ≠ []) (hc : c ∉ old) :
    ∃ other, text = c :: other ∧ Renamed old new (some c) rest other := by
  apply h.of_cons
  intro tail hEq _ _
  cases old with
  | nil => exact hOld rfl
  | cons d name =>
    obtain ⟨rfl, -⟩ := List.cons.inj hEq
    exact hc List.mem_cons_self

/-- A character that belongs to no name keeps what is in front of it and what is behind it
apart. -/
theorem Renamed.split {before : Option Char} {c : Char} {front back text : Text}
    (h : Renamed old new before (front ++ c :: back) text) (hc : c ∉ old)
    (hWord : Text.isWord c = false) :
    ∃ first last, text = first ++ c :: last ∧ Renamed old new before front first ∧
      Renamed old new (some c) back last := by
  generalize hText : front ++ c :: back = whole at h
  induction h generalizing front with
  | nil => cases front <;> cases hText
  | keep hRest ih =>
    cases front with
    | nil =>
      obtain ⟨rfl, rfl⟩ := List.cons.inj hText
      exact ⟨[], _, rfl, .nil, hRest⟩
    | cons d front =>
      obtain ⟨rfl, hTail⟩ := List.cons.inj hText
      obtain ⟨first, last, rfl, hFirst, hLast⟩ := ih hTail
      exact ⟨d :: first, last, rfl, .keep hFirst, hLast⟩
  | word hBefore hAfter hRest ih =>
    rename_i before rest other
    have hParts : ∃ more, front = old ++ more ∧ rest = more ++ c :: back := by
      rcases List.append_eq_append_iff.mp hText with ⟨more, hOld, hTail⟩ | ⟨more, hFront, hTail⟩
      · cases more with
        | nil => exact ⟨[], by simpa using hOld.symm, hTail.symm⟩
        | cons d more =>
          obtain ⟨rfl, -⟩ := List.cons.inj hTail
          exact absurd (by rw [hOld]; simp) hc
      · exact ⟨more, hFront, hTail⟩
    obtain ⟨more, rfl, hTail⟩ := hParts
    obtain ⟨first, last, rfl, hFirst, hLast⟩ := ih hTail.symm
    refine ⟨new ++ first, last, by simp, .word hBefore ?_ hFirst, hLast⟩
    rw [hTail] at hAfter
    cases more with
    | nil =>
      unfold Text.isBoundary at hAfter ⊢
      simpa [hWord] using hAfter
    | cons d more => exact hAfter

theorem Renamed.eq_nil (hOld : old ≠ []) {before : Option Char} {text other : Text}
    (h : Renamed old new before text other) (hText : text = []) : other = [] := by
  cases h with
  | nil => rfl
  | keep _ => cases hText
  | word _ _ _ => exact absurd (List.append_eq_nil_iff.mp hText).1 hOld

/-- No character is new but those of the new name. -/
theorem Renamed.not_mem {before : Option Char} {text other : Text}
    (h : Renamed old new before text other) {c : Char} (hNew : c ∉ new) (hText : c ∉ text) :
    c ∉ other := by
  induction h with
  | nil => exact hText
  | keep _ ih =>
    intro hMem
    rcases List.mem_cons.mp hMem with rfl | hRest
    · exact hText List.mem_cons_self
    · exact ih (fun hIn => hText (List.mem_cons_of_mem _ hIn)) hRest
  | word _ _ _ ih =>
    intro hMem
    rcases List.mem_append.mp hMem with hWord | hRest
    · exact hNew hWord
    · exact ih (fun hIn => hText (List.mem_append_right _ hIn)) hRest

/-! ## Indentation -/

theorem Renamed.trimStart (hOld : IsName old) (hNew : IsName new) {before : Option Char}
    (hBefore : before.any Text.isWord = false) {text other : Text}
    (h : Renamed old new before text other) :
    Renamed old new none (Text.trimStart text) (Text.trimStart other) := by
  induction h with
  | nil => exact .nil
  | keep hRest ih =>
    rename_i before c rest other
    by_cases hc : Text.isBlank c = true
    · have hTrim (more : Text) : Text.trimStart (c :: more) = Text.trimStart more :=
        List.dropWhile_cons_of_pos hc
      rw [hTrim, hTrim]
      exact ih (isWord_of_isBlank hc)
    · simp only [Bool.not_eq_true] at hc
      rw [Text.trimStart_eq_self hc, Text.trimStart_eq_self hc]
      exact .keep hRest
  | word hFirst hAfter hRest ih =>
    rename_i before rest other
    have hTrim {name : Text} (hName : IsName name) (more : Text) :
        Text.trimStart (name ++ more) = name ++ more := by
      cases name with
      | nil => exact absurd rfl hName.1
      | cons c name => exact Text.trimStart_eq_self (hName.isBlank_eq_false List.mem_cons_self)
    rw [hTrim hOld, hTrim hNew]
    refine .word ?_ hAfter hRest
    unfold Text.isBoundary at hFirst ⊢
    rw [hBefore] at hFirst
    exact hFirst

theorem IsName.isBlankText_eq_false {name : Text} (h : IsName name) :
    Text.isBlankText name = false := by
  cases name with
  | nil => exact absurd rfl h.1
  | cons c name =>
    exact Text.isBlankText_eq_false List.mem_cons_self (h.isBlank_eq_false List.mem_cons_self)

theorem Renamed.isBlankText_eq (hOld : IsName old) (hNew : IsName new) {before : Option Char}
    {text other : Text} (h : Renamed old new before text other) :
    Text.isBlankText other = Text.isBlankText text := by
  induction h with
  | nil => rfl
  | keep _ ih =>
    show (_ && _) = (_ && _)
    rw [show List.all _ Text.isBlank = List.all _ Text.isBlank from ih]
  | word _ _ _ _ =>
    rw [Text.isBlankText_append, Text.isBlankText_append, hOld.isBlankText_eq_false,
      hNew.isBlankText_eq_false]
    rfl

/-- What a text begins with of characters that belong to no name stays. -/
theorem Renamed.startsWith_eq (hOld : IsName old) (hNew : IsName new) {word : Text}
    (hWord : ∀ c ∈ word, isNameChar c = false) {before : Option Char} {text other : Text}
    (h : Renamed old new before text other) :
    Text.startsWith other word = Text.startsWith text word := by
  induction word generalizing before text other with
  | nil => rfl
  | cons c rest ih =>
    obtain ⟨hc, hRest⟩ := List.forall_mem_cons.mp hWord
    have hNone {name : Text} (hName : IsName name) (back : Text) :
        Text.startsWith (name ++ back) (c :: rest) = false := by
      cases name with
      | nil => exact absurd rfl hName.1
      | cons d name =>
        have hNe : (c == d) = false := by
          refine beq_false_of_ne ?_
          rintro rfl
          rw [hName.2 c List.mem_cons_self] at hc
          cases hc
        simp [Text.startsWith, List.isPrefixOf, hNe]
    cases h with
    | nil => rfl
    | keep hBehind => exact congrArg (_ && ·) (ih hRest hBehind)
    | word _ _ _ => rw [hNone hNew, hNone hOld]

/-! ## Markers -/

/-- A run of word characters behind another one stays. -/
theorem Renamed.of_append_behind_word {before : Option Char} (hOld : old ≠ [])
    (hBefore : before.any Text.isWord = true) {word back text : Text}
    (hWord : ∀ c ∈ word, Text.isWord c = true) (h : Renamed old new before (word ++ back) text) :
    ∃ other, text = word ++ other := by
  induction word generalizing before text with
  | nil => exact ⟨text, rfl⟩
  | cons c rest ih =>
    have hc : Text.isWord c = true := hWord c List.mem_cons_self
    obtain ⟨other, rfl, hRest⟩ := h.of_cons (by
      intro tail hEq hFirst _
      cases old with
      | nil => exact hOld rfl
      | cons d name =>
        obtain ⟨rfl, -⟩ := List.cons.inj hEq
        unfold Text.isBoundary at hFirst
        rw [hBefore] at hFirst
        simp [hc] at hFirst)
    have hBehind : (some c).any Text.isWord = true := hc
    obtain ⟨last, rfl⟩ := ih hBehind (fun d hd => hWord d (List.mem_cons_of_mem _ hd)) hRest
    exact ⟨last, rfl⟩

/-- A word stays unless the name begins with all of it. -/
theorem Renamed.of_append_word {before : Option Char} (hOld : old ≠ []) {word back text : Text}
    (hWord : ∀ c ∈ word, Text.isWord c = true) (hName : old.startsWith word = false)
    (h : Renamed old new before (word ++ back) text) : ∃ other, text = word ++ other := by
  cases word with
  | nil => exact ⟨text, rfl⟩
  | cons c rest =>
    have hc : Text.isWord c = true := hWord c List.mem_cons_self
    obtain ⟨other, rfl, hRest⟩ := h.of_cons (by
      intro tail hEq _ hAfter
      have hParts : (c :: rest) ++ back = old ++ tail := hEq
      rcases List.append_eq_append_iff.mp hParts with ⟨more, rfl, -⟩ | ⟨more, hSplit, rfl⟩
      · -- the name begins with the word
        have hStarts : Text.startsWith (c :: rest ++ more) (c :: rest) = true :=
          List.isPrefixOf_iff_prefix.mpr (List.prefix_append _ _)
        rw [hStarts] at hName
        cases hName
      · -- the name would end within the word
        cases more with
        | nil =>
          rw [List.append_nil] at hSplit
          have hStarts : Text.startsWith old (c :: rest) = true := by
            rw [← hSplit]
            exact List.isPrefixOf_iff_prefix.mpr (List.prefix_refl _)
          rw [hStarts] at hName
          cases hName
        | cons d more =>
          have hd : Text.isWord d = true := hWord d (by rw [hSplit]; simp)
          have hLast : old.getLast?.any Text.isWord = true := by
            cases hEnd : old.getLast? with
            | none => exact absurd (List.getLast?_eq_none_iff.mp hEnd) hOld
            | some last =>
              apply hWord last
              rw [hSplit]
              exact List.mem_append_left _ (List.mem_of_getLast? hEnd)
          unfold Text.isBoundary at hAfter
          rw [hLast] at hAfter
          simp [hd] at hAfter)
    have hBehind : (some c).any Text.isWord = true := hc
    obtain ⟨last, rfl⟩ :=
      hRest.of_append_behind_word hOld hBehind fun d hd => hWord d (List.mem_cons_of_mem _ hd)
    exact ⟨last, rfl⟩

/-- Characters that belong to no name stay. -/
theorem Renamed.of_append_of_not_mem {before : Option Char} (hOld : old ≠ [])
    {front back text : Text}
    (hFront : ∀ c ∈ front, c ∉ old) (h : Renamed old new before (front ++ back) text) :
    ∃ before other, text = front ++ other ∧ Renamed old new before back other := by
  induction front generalizing before text with
  | nil => exact ⟨before, text, rfl, h⟩
  | cons c rest ih =>
    obtain ⟨other, rfl, hRest⟩ := h.of_cons_of_not_mem hOld (hFront c List.mem_cons_self)
    obtain ⟨behind, last, rfl, hLast⟩ := ih (fun d hd => hFront d (List.mem_cons_of_mem _ hd)) hRest
    exact ⟨behind, last, rfl, hLast⟩

/-- A mark stays in a line that holds it. -/
theorem Renamed.contains_mark (hOld : old ≠ []) {before : Option Char} {c : Char}
    {marks word text other : Text} (hc : c ∉ old) (hNoWord : Text.isWord c = false)
    (hMarks : ∀ d ∈ marks, d ∉ old) (hWord : ∀ d ∈ word, Text.isWord d = true)
    (hName : old.startsWith word = false) (h : Renamed old new before text other)
    (hText : Text.contains text (c :: (marks ++ word)) = true) :
    Text.contains other (c :: (marks ++ word)) = true := by
  obtain ⟨front, back, rfl⟩ := Text.contains_iff.mp hText
  have hParts : front ++ (c :: (marks ++ word) ++ back) =
      front ++ c :: (marks ++ (word ++ back)) := by
    simp
  rw [hParts] at h
  obtain ⟨first, last, rfl, -, hLast⟩ := h.split hc hNoWord
  obtain ⟨behind, tail, rfl, hTail⟩ := hLast.of_append_of_not_mem hOld hMarks
  obtain ⟨more, rfl⟩ := hTail.of_append_word hOld hWord hName
  exact Text.contains_iff.mpr ⟨first, more, by simp⟩

/-! ## Several names -/

/-- Renames carried out one after the other, each a name and its new name. -/
inductive RenamedAll : List (Text × Text) → Text → Text → Prop
  | nil {text : Text} : RenamedAll [] text text
  | cons {old new text next other : Text} {renames : List (Text × Text)} :
    Renamed old new none text next → RenamedAll renames next other →
    RenamedAll ((old, new) :: renames) text other

/-- Whether all names that are replaced are names of classes, and the new ones too. -/
def AreNames (renames : List (Text × Text)) : Prop :=
  ∀ rename ∈ renames, IsName rename.1 ∧ IsName rename.2

variable {renames : List (Text × Text)}

theorem RenamedAll.split (hNames : AreNames renames) {c : Char} (hc : isNameChar c = false)
    (hWord : Text.isWord c = false) {front back text : Text}
    (h : RenamedAll renames (front ++ c :: back) text) :
    ∃ first last, text = first ++ c :: last ∧ RenamedAll renames front first ∧
      RenamedAll renames back last := by
  generalize hText : front ++ c :: back = whole at h
  induction h generalizing front back with
  | nil => exact ⟨front, back, hText.symm, .nil, .nil⟩
  | cons hFirst _ ih =>
    rw [← hText] at hFirst
    have hOld := (hNames _ List.mem_cons_self).1
    obtain ⟨nextFront, nextBack, rfl, hNextFront, hNextBack⟩ :=
      hFirst.split (hOld.not_mem hc) hWord
    obtain ⟨first, last, rfl, hFront, hBack⟩ :=
      ih (fun rename hMem => hNames rename (List.mem_cons_of_mem _ hMem)) rfl
    exact ⟨first, last, rfl, .cons hNextFront hFront, .cons (hNextBack.behind hWord) hBack⟩

theorem RenamedAll.eq_nil (hNames : AreNames renames) {text other : Text} (hText : text = [])
    (h : RenamedAll renames text other) : other = [] := by
  induction h with
  | nil => exact hText
  | cons hFirst _ ih =>
    have hRest := ih fun rename hMem => hNames rename (List.mem_cons_of_mem _ hMem)
    exact hRest (hFirst.eq_nil (hNames _ List.mem_cons_self).1.1 hText)

/-- The lines that a text begins with are renamed one by one. -/
theorem RenamedAll.lines (hNames : AreNames renames) {rows : List Text} {back text : Text}
    (h : RenamedAll renames (Text.ofLines rows ++ back) text) :
    ∃ others last, text = Text.ofLines others ++ last ∧
      List.Forall₂ (RenamedAll renames) rows others ∧ RenamedAll renames back last := by
  induction rows generalizing text with
  | nil => exact ⟨[], text, rfl, .nil, h⟩
  | cons row rest ih =>
    have hText : Text.ofLines (row :: rest) ++ back =
        row ++ '\n' :: (Text.ofLines rest ++ back) := by
      simp [Text.ofLines]
    rw [hText] at h
    obtain ⟨first, tail, rfl, hFirst, hTail⟩ := h.split hNames rfl rfl
    obtain ⟨others, last, rfl, hOthers, hLast⟩ := ih hTail
    exact ⟨first :: others, last, by simp [Text.ofLines], .cons hFirst hOthers, hLast⟩

theorem RenamedAll.not_mem (hNames : AreNames renames) {text other : Text} {c : Char}
    (hc : isNameChar c = false) (h : RenamedAll renames text other) (hText : c ∉ text) :
    c ∉ other := by
  induction h with
  | nil => exact hText
  | cons hFirst _ ih =>
    have hNew := (hNames _ List.mem_cons_self).2
    apply ih fun rename hMem => hNames rename (List.mem_cons_of_mem _ hMem)
    exact hFirst.not_mem (hNew.not_mem hc) hText

theorem RenamedAll.contains_mark (hNames : AreNames renames) {c : Char} {marks word : Text}
    (hMarks : ∀ d ∈ c :: marks, isNameChar d = false) (hNoWord : Text.isWord c = false)
    (hWord : ∀ d ∈ word, Text.isWord d = true)
    (hNone : ∀ rename ∈ renames, Text.startsWith rename.1 word = false) {text other : Text}
    (h : RenamedAll renames text other)
    (hText : Text.contains text (c :: (marks ++ word)) = true) :
    Text.contains other (c :: (marks ++ word)) = true := by
  induction h with
  | nil => exact hText
  | cons hFirst _ ih =>
    have hOld := (hNames _ List.mem_cons_self).1
    have hNotOld {d : Char} (hMem : d ∈ c :: marks) := hOld.not_mem (hMarks d hMem)
    apply ih (fun rename hMem => hNames rename (List.mem_cons_of_mem _ hMem))
      fun rename hMem => hNone rename (List.mem_cons_of_mem _ hMem)
    exact hFirst.contains_mark hOld.1 (hNotOld List.mem_cons_self) hNoWord
      (fun d hd => hNotOld (List.mem_cons_of_mem _ hd)) hWord (hNone _ List.mem_cons_self) hText

theorem RenamedAll.trimStart (hNames : AreNames renames) {text other : Text}
    (h : RenamedAll renames text other) :
    RenamedAll renames (Text.trimStart text) (Text.trimStart other) := by
  induction h with
  | nil => exact .nil
  | cons hFirst _ ih =>
    obtain ⟨hOld, hNew⟩ := hNames _ List.mem_cons_self
    have hRest := ih fun rename hMem => hNames rename (List.mem_cons_of_mem _ hMem)
    exact .cons (hFirst.trimStart hOld hNew rfl) hRest

theorem RenamedAll.isBlankText_eq (hNames : AreNames renames) {text other : Text}
    (h : RenamedAll renames text other) : Text.isBlankText other = Text.isBlankText text := by
  induction h with
  | nil => rfl
  | cons hFirst _ ih =>
    obtain ⟨hOld, hNew⟩ := hNames _ List.mem_cons_self
    rw [ih fun rename hMem => hNames rename (List.mem_cons_of_mem _ hMem),
      hFirst.isBlankText_eq hOld hNew]

theorem RenamedAll.startsWith_eq (hNames : AreNames renames) {word : Text}
    (hWord : ∀ c ∈ word, isNameChar c = false) {text other : Text}
    (h : RenamedAll renames text other) :
    Text.startsWith other word = Text.startsWith text word := by
  induction h with
  | nil => rfl
  | cons hFirst _ ih =>
    obtain ⟨hOld, hNew⟩ := hNames _ List.mem_cons_self
    rw [ih fun rename hMem => hNames rename (List.mem_cons_of_mem _ hMem),
      hFirst.startsWith_eq hOld hNew hWord]

/-! ## Lines -/

theorem newline_not_mem_of_renamed (hNames : AreNames renames) {lines others : List Text}
    (h : List.Forall₂ (RenamedAll renames) lines others) (hLines : ∀ line ∈ lines, '\n' ∉ line) :
    ∀ other ∈ others, '\n' ∉ other := by
  induction h with
  | nil =>
    intro other hMem
    cases hMem
  | cons hLine _ ih =>
    intro other hMem
    rcases List.mem_cons.mp hMem with rfl | hRest
    · exact hLine.not_mem hNames rfl (hLines _ List.mem_cons_self)
    · exact ih (fun line hIn => hLines line (List.mem_cons_of_mem _ hIn)) other hRest

/-- What renaming does not change is the same line by line. -/
theorem map_eq_of_renamed {β : Type} {read : Text → β}
    (hSame : ∀ line other, RenamedAll renames line other → read other = read line)
    {lines others : List Text} (h : List.Forall₂ (RenamedAll renames) lines others) :
    others.map read = lines.map read := by
  induction h with
  | nil => rfl
  | cons hLine _ ih => rw [List.map_cons, List.map_cons, hSame _ _ hLine, ih]

/-- The lines of a text are renamed one by one. -/
theorem RenamedAll.pieces (hNames : AreNames renames) {text other : Text}
    (h : RenamedAll renames text other) :
    List.Forall₂ (RenamedAll renames) text.pieces other.pieces := by
  obtain ⟨rows, last, hPieces, rfl, hRows⟩ := Text.exists_rows text
  obtain ⟨others, back, rfl, hOthers, hBack⟩ := h.lines hNames
  have hNoRow := newline_not_mem_of_renamed hNames hOthers fun row hRow =>
    hRows row (List.mem_append_left _ hRow)
  have hNoLast := hBack.not_mem hNames rfl
    (hRows last (List.mem_append_right _ List.mem_cons_self))
  rw [hPieces, Text.pieces_ofLines_append hNoRow, Text.pieces_of_not_mem hNoLast]
  exact List.rel_append hOthers (.cons hBack .nil)

end XdrBindings.Code
