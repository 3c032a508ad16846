import XdrBindings.Proofs.Text.Trim

/-!
# How often a part stands in a text

## Main results

* `le_occurrences_append` — a text has the occurrences of its parts at least.
* `occurrences_append_cons` — a character that the part does not have keeps occurrences apart.
* `occurrences_trimEnd` — blanks at the end hold none.
-/

namespace XdrBindings.Text

/-- The number of places at which a part stands in a text. -/
def occurrences (part : Text) : Text → Nat
  | [] => 0
  | c :: rest =>
    if startsWith (c :: rest) part then occurrences part rest + 1 else occurrences part rest

theorem occurrences_cons (part : Text) (c : Char) (rest : Text) :
    occurrences part (c :: rest) =
      if startsWith (c :: rest) part then occurrences part rest + 1
      else occurrences part rest := rfl

theorem startsWith_append {text part : Text} (h : startsWith text part = true) (back : Text) :
    startsWith (text ++ back) part = true := by
  have hPrefix := List.isPrefixOf_iff_prefix.mp h
  exact List.isPrefixOf_iff_prefix.mpr (hPrefix.trans (List.prefix_append text back))

theorem startsWith_append_cons {part : Text} {c : Char} (hc : c ∉ part) (front back : Text) :
    startsWith (front ++ c :: back) part = startsWith front part := by
  induction part generalizing front with
  | nil => simp [startsWith]
  | cons d part ih =>
    simp only [List.mem_cons, not_or] at hc
    cases front with
    | nil => simp [startsWith, List.isPrefixOf, Ne.symm hc.1]
    | cons e rest =>
      have hRest := ih hc.2 rest
      simp only [startsWith] at hRest
      simp only [startsWith, List.cons_append, List.isPrefixOf, hRest]

theorem le_occurrences_append (part front back : Text) :
    occurrences part front + occurrences part back ≤ occurrences part (front ++ back) := by
  induction front with
  | nil =>
    show 0 + occurrences part back ≤ occurrences part back
    omega
  | cons c rest ih =>
    rw [List.cons_append, occurrences_cons, occurrences_cons]
    by_cases hStarts : startsWith (c :: rest) part = true
    · have hWhole : startsWith (c :: (rest ++ back)) part = true := startsWith_append hStarts back
      rw [if_pos hStarts, if_pos hWhole]
      omega
    · rw [if_neg hStarts]
      split
      · omega
      · exact ih

theorem occurrences_append_cons {part : Text} {c : Char} (hPart : part ≠ []) (hc : c ∉ part)
    (front back : Text) :
    occurrences part (front ++ c :: back) = occurrences part front + occurrences part back := by
  induction front with
  | nil =>
    have hStarts := startsWith_append_cons hc [] back
    have hNil : startsWith [] part = false := by
      cases part with
      | nil => exact absurd rfl hPart
      | cons d part => rfl
    rw [hNil, List.nil_append] at hStarts
    show occurrences part (c :: back) = 0 + occurrences part back
    rw [occurrences_cons, hStarts, if_neg (by decide), Nat.zero_add]
  | cons d rest ih =>
    have hStarts := startsWith_append_cons hc (d :: rest) back
    rw [List.cons_append] at hStarts ⊢
    rw [occurrences_cons, occurrences_cons, hStarts, ih]
    split
    · omega
    · rfl

theorem occurrences_eq_zero {part text : Text} (h : contains text part = false) :
    occurrences part text = 0 := by
  induction text with
  | nil => rfl
  | cons c rest ih =>
    rw [contains, Bool.or_eq_false_iff] at h
    rw [occurrences_cons, h.1, if_neg (by decide)]
    exact ih h.2

theorem occurrences_pos {part text : Text} (hPart : part ≠ []) (h : contains text part = true) :
    0 < occurrences part text := by
  induction text with
  | nil =>
    rw [contains, List.isEmpty_iff] at h
    exact absurd h hPart
  | cons c rest ih =>
    rw [occurrences_cons]
    split
    · omega
    · rename_i hStarts
      rw [contains, Bool.or_eq_true] at h
      rcases h with hFirst | hRest
      · exact absurd hFirst hStarts
      · exact ih hRest

theorem occurrences_append_blanks {part blanks : Text}
    (hLast : part.getLast?.any (!isBlank ·) = true) (hBlanks : ∀ c ∈ blanks, isBlank c = true)
    (text : Text) : occurrences part (text ++ blanks) = occurrences part text := by
  have hStarts (front : Text) (h : startsWith (front ++ blanks) part = true) :
      startsWith front part = true := by
    obtain ⟨rest, hRest⟩ := List.isPrefixOf_iff_prefix.mp h
    rcases List.append_eq_append_iff.mp hRest with ⟨more, hFront, -⟩ | ⟨more, hPart, hBack⟩
    · exact List.isPrefixOf_iff_prefix.mpr ⟨more, hFront.symm⟩
    · cases hMore : more.getLast? with
      | none =>
        rw [List.getLast?_eq_none_iff.mp hMore, List.append_nil] at hPart
        rw [hPart]
        exact List.isPrefixOf_iff_prefix.mpr (List.prefix_refl front)
      | some last =>
        -- the part would end with a blank
        have hBlank : isBlank last = true := by
          apply hBlanks
          rw [hBack]
          exact List.mem_append_left _ (List.mem_of_getLast? hMore)
        rw [hPart, List.getLast?_append, hMore] at hLast
        simp [hBlank] at hLast
  induction text with
  | nil =>
    show occurrences part blanks = 0
    apply occurrences_eq_zero
    cases hContains : contains blanks part with
    | false => rfl
    | true =>
      obtain ⟨front, back, hParts⟩ := contains_iff.mp hContains
      cases hPart : part.getLast? with
      | none =>
        rw [hPart] at hLast
        cases hLast
      | some last =>
        have hBlank : isBlank last = true := by
          apply hBlanks
          rw [hParts]
          simp [List.mem_of_getLast? hPart]
        rw [hPart] at hLast
        simp [hBlank] at hLast
  | cons c rest ih =>
    have hSame : startsWith (c :: (rest ++ blanks)) part = startsWith (c :: rest) part := by
      rw [Bool.eq_iff_iff]
      constructor
      · exact hStarts (c :: rest)
      · intro h
        exact startsWith_append h blanks
    rw [List.cons_append, occurrences_cons, occurrences_cons, hSame, ih]

theorem occurrences_trimEnd {part : Text} (hLast : part.getLast?.any (!isBlank ·) = true)
    (text : Text) : occurrences part (trimEnd text) = occurrences part text := by
  obtain ⟨blanks, hText, hBlanks⟩ := exists_trimEnd text
  calc occurrences part (trimEnd text)
    _ = occurrences part (trimEnd text ++ blanks) :=
      (occurrences_append_blanks hLast hBlanks _).symm
    _ = occurrences part text := by rw [← hText]

end XdrBindings.Text
