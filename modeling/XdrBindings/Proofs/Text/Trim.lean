import Mathlib.Data.List.DropRight
import XdrBindings.Text.Blank

/-!
# Parts of texts

## Main results

* `contains_iff` — a part that is searched for, as a cut of the text.
* `exists_of_dropBytes?` — a number of bytes taken from a text is the width of a front.
* `exists_trimEnd`, `trimEnd_append` — what trimming takes off, and where it stops.
* `trim_trim` — trimming again changes nothing.
-/

namespace XdrBindings.Text

/-! ## Parts -/

section Decidable

variable (P : Char → Prop) [DecidablePred P]

/-- What holds of every character of a text is checked on the text, not on all characters. -/
instance decidableForallMem (text : Text) : Decidable (∀ c ∈ text, P c) :=
  List.decidableBAll P text

instance decidableForallMemOption (c? : Option Char) : Decidable (∀ c ∈ c?, P c) :=
  c?.decidableForallMem

end Decidable

theorem contains_iff {text part : Text} :
    contains text part = true ↔ ∃ front back, text = front ++ (part ++ back) := by
  induction text with
  | nil =>
    rw [contains, List.isEmpty_iff]
    constructor
    · rintro rfl
      exact ⟨[], [], rfl⟩
    · rintro ⟨front, back, hText⟩
      exact (List.append_eq_nil_iff.mp (List.append_eq_nil_iff.mp hText.symm).2).1
  | cons c rest ih =>
    rw [contains, Bool.or_eq_true, ih]
    constructor
    · rintro (hFirst | ⟨front, back, rfl⟩)
      · obtain ⟨back, hBack⟩ := List.isPrefixOf_iff_prefix.mp hFirst
        exact ⟨[], back, hBack.symm⟩
      · exact ⟨c :: front, back, rfl⟩
    · rintro ⟨front, back, hText⟩
      cases front with
      | nil => exact .inl (List.isPrefixOf_iff_prefix.mpr ⟨back, hText.symm⟩)
      | cons d front => exact .inr ⟨front, back, (List.cons.inj hText).2⟩

/-- What a text does not hold, no part of it does. -/
theorem contains_eq_false_of_append {front middle back part : Text}
    (h : contains (front ++ (middle ++ back)) part = false) : contains middle part = false := by
  cases hMiddle : contains middle part with
  | false => rfl
  | true =>
    obtain ⟨first, last, rfl⟩ := contains_iff.mp hMiddle
    have hWhole : contains (front ++ (first ++ (part ++ last) ++ back)) part = true :=
      contains_iff.mpr ⟨front ++ first, last ++ back, by simp⟩
    rw [hWhole] at h
    cases h

/-- What a part of a text holds, the text does. -/
theorem contains_append_left {text part : Text} (front : Text) (h : contains text part = true) :
    contains (front ++ text) part = true := by
  obtain ⟨first, last, rfl⟩ := contains_iff.mp h
  exact contains_iff.mpr ⟨front ++ first, last, by simp⟩

/-- Blanks in front hold no part that begins with another character. -/
theorem contains_of_blanks_append {blanks text part : Text} (h : ∀ c ∈ blanks, isBlank c = true)
    (hPart : part.head?.any (!isBlank ·) = true)
    (hContains : contains (blanks ++ text) part = true) :
    contains text part = true := by
  induction blanks with
  | nil => exact hContains
  | cons c rest ih =>
    rw [List.cons_append, contains, Bool.or_eq_true] at hContains
    rcases hContains with hStarts | hRest
    · obtain ⟨d, more, rfl⟩ : ∃ d more, part = d :: more := by
        cases part with
        | nil => cases hPart
        | cons d more => exact ⟨d, more, rfl⟩
      obtain ⟨back, hBack⟩ := List.isPrefixOf_iff_prefix.mp hStarts
      obtain ⟨rfl, -⟩ := List.cons.inj hBack
      rw [List.head?_cons, Option.any_some, h d List.mem_cons_self] at hPart
      cases hPart
    · exact ih (fun d hd => h d (List.mem_cons_of_mem _ hd)) hRest

/-- A part that ends otherwise than a text is in front of its last character. -/
theorem contains_of_getLast?_ne {text part : Text} {last : Char}
    (hLast : part.getLast? ≠ some last) (h : contains (text ++ [last]) part = true) :
    contains text part = true := by
  obtain ⟨front, back, hText⟩ := contains_iff.mp h
  rcases List.eq_nil_or_concat back with rfl | ⟨rest, c, hBack⟩
  · rcases List.eq_nil_or_concat part with rfl | ⟨rest, c, hPart⟩
    · exact contains_iff.mpr ⟨text, [], by simp⟩
    · rw [List.concat_eq_append] at hPart
      rw [hPart, List.append_nil, ← List.append_assoc] at hText
      obtain ⟨-, hEnd⟩ := List.append_inj' hText rfl
      exact absurd (by rw [hPart, ← hEnd, List.getLast?_concat]) hLast
  · rw [List.concat_eq_append] at hBack
    rw [hBack, ← List.append_assoc, ← List.append_assoc] at hText
    obtain ⟨hFront, -⟩ := List.append_inj' hText rfl
    exact contains_iff.mpr ⟨front, rest, by rw [hFront, List.append_assoc]⟩

/-- A part without the last character of a text is in front of it. -/
theorem contains_of_concat {text part : Text} {last : Char} (hLast : last ∉ part)
    (h : contains (text ++ [last]) part = true) : contains text part = true :=
  contains_of_getLast?_ne (fun hEnds => hLast (List.mem_of_getLast? hEnds)) h

/-! ## Fronts -/

theorem exists_of_dropBytes? {count : Nat} {text rest : Text}
    (h : dropBytes? count text = some rest) :
    ∃ front, text = front ++ rest ∧ byteSize front = count := by
  induction text generalizing count with
  | nil =>
    cases count with
    | zero => exact ⟨[], by simpa [dropBytes?] using h, rfl⟩
    | succ count => cases h
  | cons c text ih =>
    cases count with
    | zero => exact ⟨[], by simpa [dropBytes?] using h, rfl⟩
    | succ count =>
      rw [dropBytes?] at h
      split at h
      · rename_i hWidth
        obtain ⟨front, rfl, hFront⟩ := ih h
        refine ⟨c :: front, rfl, ?_⟩
        rw [byteSize_cons, hFront]
        omega
      · cases h

/-- A front no wider than the run of characters that a text begins with is part of it. -/
theorem all_of_byteSize_le {p : Char → Bool} {front rest : Text}
    (h : byteSize front ≤ byteSize ((front ++ rest).takeWhile p)) : ∀ c ∈ front, p c = true := by
  induction front with
  | nil =>
    intro c hc
    cases hc
  | cons c front ih =>
    have hWidth : 0 < c.utf8Size := Char.utf8Size_pos c
    rw [List.cons_append, List.takeWhile_cons] at h
    by_cases hc : p c = true
    · rw [if_pos hc, byteSize_cons, byteSize_cons] at h
      have hFront := ih (by omega)
      intro d hd
      rcases List.mem_cons.mp hd with rfl | hRest
      · exact hc
      · exact hFront d hRest
    · rw [if_neg hc, byteSize_cons, byteSize_nil] at h
      omega

/-- The characters of one sort at the front of a text that goes on with another sort. -/
theorem takeWhile_append_of_head {p : Char → Bool} {front back : Text}
    (hFront : ∀ c ∈ front, p c = true) (hBack : ∀ c ∈ back.head?, p c = false) :
    (front ++ back).takeWhile p = front := by
  have hNone : back.takeWhile p = [] := by
    cases back with
    | nil => rfl
    | cons c rest => exact List.takeWhile_cons_of_neg (by simp [hBack c rfl])
  rw [List.takeWhile_append_of_pos hFront, hNone, List.append_nil]

/-! ## Blank ends -/

theorem isBlankText_append (front back : Text) :
    isBlankText (front ++ back) = (isBlankText front && isBlankText back) := by
  unfold isBlankText
  rw [List.all_append]

theorem isBlankText_eq_false {text : Text} {c : Char} (hMem : c ∈ text) (hc : isBlank c = false) :
    isBlankText text = false := by
  cases hText : isBlankText text with
  | false => rfl
  | true =>
    rw [List.all_eq_true.mp hText c hMem] at hc
    cases hc

theorem trimStart_append {front : Text} (h : ∀ c ∈ front, isBlank c = true) (back : Text) :
    trimStart (front ++ back) = trimStart back := List.dropWhile_append_of_pos h

theorem trimStart_append_of_isBlankText {front : Text} (h : isBlankText front = false)
    (back : Text) : trimStart (front ++ back) = trimStart front ++ back := by
  induction front with
  | nil => cases h
  | cons c rest ih =>
    cases hc : isBlank c with
    | false => rw [List.cons_append, trimStart_eq_self hc, trimStart_eq_self hc, List.cons_append]
    | true =>
      have hRest : isBlankText rest = false := by
        unfold isBlankText at h
        rw [List.all_cons, hc, Bool.true_and] at h
        exact h
      have hTrim (more : Text) : trimStart (c :: more) = trimStart more :=
        List.dropWhile_cons_of_pos hc
      rw [List.cons_append, hTrim, hTrim, ih hRest]

/-- What trimming takes off the end of a text is blank. -/
theorem exists_trimEnd (text : Text) :
    ∃ blanks, text = trimEnd text ++ blanks ∧ ∀ c ∈ blanks, isBlank c = true := by
  refine ⟨(text.reverse.takeWhile isBlank).reverse, ?_, ?_⟩
  · unfold trimEnd
    rw [← List.reverse_append, List.takeWhile_append_dropWhile, List.reverse_reverse]
  · intro c hc
    have hAll := List.all_takeWhile (p := isBlank) (l := text.reverse)
    exact List.all_eq_true.mp hAll c (List.mem_reverse.mp hc)

/-- Trimming stops at the last character that is not blank. -/
theorem trimEnd_append {back : Text} (h : isBlankText back = false) (front : Text) :
    trimEnd (front ++ back) = front ++ trimEnd back := by
  have hDrop : (back.reverse ++ front.reverse).dropWhile isBlank =
      back.reverse.dropWhile isBlank ++ front.reverse := by
    rw [List.dropWhile_append]
    split
    · rename_i hEmpty
      have hTake : back.reverse.takeWhile isBlank = back.reverse := by
        have hWhole := List.takeWhile_append_dropWhile (p := isBlank) (l := back.reverse)
        rw [List.isEmpty_iff.mp hEmpty, List.append_nil] at hWhole
        exact hWhole
      have hBlank : isBlankText back = true := by
        apply List.all_eq_true.mpr
        intro c hc
        rw [← List.mem_reverse, ← hTake] at hc
        exact List.all_eq_true.mp List.all_takeWhile c hc
      rw [hBlank] at h
      cases h
    · rfl
  unfold trimEnd
  rw [List.reverse_append, hDrop, List.reverse_append, List.reverse_reverse]

/-- Blanks at the end do not matter for what a text begins with, if that holds none. -/
theorem startsWith_trimEnd {word : Text} (hWord : ∀ c ∈ word, isBlank c = false)
    (text : Text) : startsWith (trimEnd text) word = startsWith text word := by
  obtain ⟨blanks, hText, hBlanks⟩ := exists_trimEnd text
  rw [Bool.eq_iff_iff]
  unfold startsWith
  rw [List.isPrefixOf_iff_prefix, List.isPrefixOf_iff_prefix]
  constructor
  · intro hPrefix
    rw [hText]
    exact hPrefix.trans (List.prefix_append _ _)
  · rintro ⟨rest, hRest⟩
    rw [hText] at hRest
    rcases List.append_eq_append_iff.mp hRest with ⟨more, hTrim, -⟩ | ⟨more, rfl, hBack⟩
    · exact ⟨more, hTrim.symm⟩
    · cases more with
      | nil => exact ⟨[], by simp⟩
      | cons c more =>
        have hBlank := hBlanks c (by rw [hBack]; simp)
        rw [hWord c (by simp)] at hBlank
        cases hBlank

theorem isBlankText_trimEnd {text : Text} (h : isBlankText text = false) :
    isBlankText (trimEnd text) = false := by
  obtain ⟨blanks, hText, hBlanks⟩ := exists_trimEnd text
  have hAll : isBlankText blanks = true := List.all_eq_true.mpr hBlanks
  rw [hText, isBlankText_append, hAll, Bool.and_true] at h
  exact h

/-! ## Trimming at both ends -/

theorem trimEnd_append_of_isBlankText {back : Text} (h : isBlankText back = true) (front : Text) :
    trimEnd (front ++ back) = trimEnd front := by
  unfold trimEnd
  rw [List.reverse_append, List.dropWhile_append_of_pos]
  intro c hc
  exact List.all_eq_true.mp h c (List.mem_reverse.mp hc)

theorem trim_append_of_isBlankText {back : Text} (h : isBlankText back = true) (front : Text) :
    trim (front ++ back) = trim front := by
  cases hFront : isBlankText front with
  | true =>
    have hBoth : isBlankText (front ++ back) = true := by rw [isBlankText_append, hFront, h]; rfl
    rw [trim_eq_nil_of_isBlankText hFront, trim_eq_nil_of_isBlankText hBoth]
  | false =>
    unfold trim
    rw [trimStart_append_of_isBlankText hFront, trimEnd_append_of_isBlankText h]

/-- A text begins with no blank when its first blanks are off. -/
theorem trimStart_eq_nil_or (text : Text) :
    trimStart text = [] ∨ ∃ c rest, trimStart text = c :: rest ∧ isBlank c = false := by
  have hHead := List.head?_dropWhile_not isBlank text
  cases hText : trimStart text with
  | nil => exact .inl rfl
  | cons c rest =>
    have hDrop : text.dropWhile isBlank = c :: rest := hText
    rw [hDrop] at hHead
    exact .inr ⟨c, rest, rfl, by simpa using hHead⟩

theorem trimStart_trimStart (text : Text) : trimStart (trimStart text) = trimStart text :=
  List.dropWhile_idempotent _ _

theorem trim_trimStart (text : Text) : trim (trimStart text) = trim text := by
  unfold trim
  rw [trimStart_trimStart]

/-- Trimming a text at its end leaves its beginning, if that is no blank. -/
theorem exists_trimEnd_cons {c : Char} (hc : isBlank c = false) (rest : Text) :
    ∃ more, trimEnd (c :: rest) = c :: more := by
  obtain ⟨blanks, hText, hBlanks⟩ := exists_trimEnd (c :: rest)
  cases hTrim : trimEnd (c :: rest) with
  | nil =>
    rw [hTrim, List.nil_append] at hText
    rw [hBlanks c (by rw [← hText]; exact List.mem_cons_self)] at hc
    cases hc
  | cons d more =>
    rw [hTrim, List.cons_append] at hText
    obtain ⟨rfl, -⟩ := List.cons.inj hText
    exact ⟨more, rfl⟩

theorem trimStart_trim (text : Text) : trimStart (trim text) = trim text := by
  unfold trim
  rcases trimStart_eq_nil_or text with hNil | ⟨c, rest, hText, hc⟩
  · rw [hNil]
    rfl
  · obtain ⟨more, hMore⟩ := exists_trimEnd_cons hc rest
    rw [hText, hMore, trimStart_eq_self hc]

theorem trim_trim (text : Text) : trim (trim text) = trim text := by
  have hEnd : trimEnd (trim text) = trim text := by
    unfold trim trimEnd
    rw [List.reverse_reverse, List.dropWhile_idempotent]
  rw [trim, trimStart_trim, hEnd]

theorem mem_of_mem_trim {c : Char} {text : Text} (h : c ∈ trim text) : c ∈ text := by
  unfold trim trimEnd at h
  have hReverse := List.dropWhile_subset _ (List.mem_reverse.mp h)
  exact List.dropWhile_subset _ (List.mem_reverse.mp hReverse)

end XdrBindings.Text
