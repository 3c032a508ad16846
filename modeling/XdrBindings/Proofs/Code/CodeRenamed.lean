import XdrBindings.Proofs.Code.Outline
import XdrBindings.Proofs.Code.Renamed

/-!
# Renaming along with the reader

Renaming replaces the whole words that are the old name and code, and no others.  Reading both
texts side by side, the reader looks ahead at the same marks of comments and strings: a name
holds none of them.

## Main results

* `codeRenamed_renameWord` — renaming as a relation between what is read and what is written.
* `CodeRenamed.step_eq` — what is ahead decides alike in both texts.
-/

namespace XdrBindings.Code

/-! ## Words in code -/

/-- A text of characters that belong to names and to words. -/
structure IsPlainWord (word : Text) : Prop where
  ne_nil : word ≠ []
  isName : ∀ c ∈ word, isNameChar c = true
  isWord : ∀ c ∈ word, Text.isWord c = true

theorem toNat_lt_of_isNameChar {c : Char} (h : isNameChar c = true) : c.toNat < 128 := by
  have hVal : c.val.toNat = c.toNat := rfl
  unfold isNameChar Char.isAlphanum Char.isAlpha Char.isUpper Char.isLower Char.isDigit at h
  simp only [Bool.or_eq_true, Bool.and_eq_true, decide_eq_true_eq, beq_iff_eq, ge_iff_le,
    UInt32.le_iff_toNat_le] at h
  rcases h with (h | rfl) | rfl
  · simp at h
    omega
  · decide
  · decide

/-- Of the characters of names only the dollar sign belongs to no word. -/
theorem isWord_of_isNameChar {c : Char} (h : isNameChar c = true) :
    Text.isWord c = (c != '$') := by
  rw [Text.isWord_ascii (toNat_lt_of_isNameChar h)]
  by_cases hDollar : c = '$'
  · subst hDollar
    rfl
  · rw [bne_iff_ne.mpr hDollar]
    simpa [isNameChar, hDollar] using h

/-- A plain word is made of ASCII letters, digits and underscores. -/
theorem isPlainWord_iff {word : Text} : IsPlainWord word ↔ IsName word ∧ '$' ∉ word := by
  constructor
  · intro h
    refine ⟨⟨h.ne_nil, h.isName⟩, fun hDollar => ?_⟩
    cases h.isWord '$' hDollar
  · rintro ⟨⟨hSome, hName⟩, hDollar⟩
    refine ⟨hSome, hName, fun c hc => ?_⟩
    rw [isWord_of_isNameChar (hName c hc), bne_iff_ne]
    exact ne_of_mem_of_not_mem hc hDollar

instance (word : Text) : Decidable (IsPlainWord word) :=
  decidable_of_iff ((word ≠ [] ∧ ∀ c ∈ word, isNameChar c = true) ∧ '$' ∉ word)
    isPlainWord_iff.symm

theorem IsPlainWord.any_getLast? {word : Text} (h : IsPlainWord word) :
    word.getLast?.any Text.isWord = true := by
  obtain ⟨c, hc⟩ := Option.ne_none_iff_exists'.mp (mt List.getLast?_eq_none_iff.mp h.ne_nil)
  rw [hc]
  exact h.isWord c (List.mem_of_getLast? hc)

theorem IsPlainWord.any_head? {word : Text} (h : IsPlainWord word) (back : Text) :
    (word ++ back).head?.any Text.isWord = true := by
  obtain ⟨c, rest, rfl⟩ := List.exists_cons_of_ne_nil h.ne_nil
  exact h.isWord c List.mem_cons_self

theorem Renamed.any_head? (hOld : IsPlainWord old) (hNew : IsPlainWord new) {before : Option Char}
    {text other : Text} (h : Renamed old new before text other) :
    other.head?.any Text.isWord = text.head?.any Text.isWord := by
  cases h with
  | nil => rfl
  | keep _ => rfl
  | word _ _ _ => rw [hNew.any_head?, hOld.any_head?]

/-- A text is renamed back. -/
theorem Renamed.symm (hOld : IsPlainWord old) (hNew : IsPlainWord new) {before : Option Char}
    {text other : Text} (h : Renamed old new before text other) :
    Renamed new old before other text := by
  have hSame : new.getLast?.any Text.isWord = old.getLast?.any Text.isWord := by
    rw [hOld.any_getLast?, hNew.any_getLast?]
  have hHead : new.head?.any Text.isWord = old.head?.any Text.isWord := by
    have hBoth := (hNew.any_head? []).trans (hOld.any_head? []).symm
    rwa [List.append_nil, List.append_nil] at hBoth
  induction h with
  | nil => exact .nil
  | keep _ ih => exact .keep ih
  | word hBefore hAfter hRest ih =>
    refine .word ?_ ?_ (ih.behind hSame.symm)
    · unfold Text.isBoundary at hBefore ⊢
      rw [hHead]
      exact hBefore
    · unfold Text.isBoundary at hAfter ⊢
      rw [hSame, hRest.any_head? hOld hNew]
      exact hAfter

namespace Reader

/-- The reader is in code. -/
def IsInCode (reader : Reader) : Prop := reader.Alike (inCode reader.behind)

theorem regionsFrom_inCode (behind : Behind) {word : Text}
    (hWord : ∀ c ∈ word, isPlain c = true) (back : Text) :
    (inCode behind).regionsFrom (word ++ back) =
      List.replicate word.length .code ++ (inCode (behind.after word)).regionsFrom back := by
  induction word generalizing behind with
  | nil => rfl
  | cons c rest ih =>
    obtain ⟨hc, hRest⟩ := List.forall_mem_cons.mp hWord
    rw [List.cons_append, regionsFrom, step_inCode behind hc]
    dsimp only
    rw [ih _ hRest]
    rfl

theorem after_inCode (behind : Behind) {word : Text} (hWord : ∀ c ∈ word, isPlain c = true) :
    (inCode behind).after word = inCode (behind.after word) := by
  induction word generalizing behind with
  | nil => rfl
  | cons c rest ih =>
    obtain ⟨hc, hRest⟩ := List.forall_mem_cons.mp hWord
    rw [after_cons, step_inCode behind hc, ih _ hRest]
    rfl

end Reader

/-! ## The relation -/

/-- `CodeRenamed old new reader before text other` says that `other` is `text`, which the reader
reads behind the character `before`, with all of its words that are `old` and code replaced by
`new`. -/
inductive CodeRenamed (old new : Text) : Reader → Option Char → Text → Text → Prop
  | nil {reader : Reader} {before : Option Char} : CodeRenamed old new reader before [] []
  | keep {reader : Reader} {before : Option Char} {c : Char} {rest other : Text} :
    (∀ back, c :: rest = old ++ back → Text.isBoundary before old.head? = true →
      Text.isBoundary old.getLast? back.head? = true → ¬reader.IsInCode) →
    CodeRenamed old new (reader.step c rest).1 (some c) rest other →
    CodeRenamed old new reader before (c :: rest) (c :: other)
  | word {reader : Reader} {before : Option Char} {rest other : Text} :
    reader.IsInCode → Text.isBoundary before old.head? = true →
    Text.isBoundary old.getLast? rest.head? = true →
    CodeRenamed old new (.inCode (reader.behind.after old)) old.getLast? rest other →
    CodeRenamed old new reader before (old ++ rest) (new ++ other)

variable {old new : Text}

variable (hOld : IsPlainWord old)

include hOld

theorem IsPlainWord.isPlain {c : Char} (hc : c ∈ old) : isPlain c = true :=
  isPlain_of_isNameChar (hOld.isName c hc)

theorem isCodeAhead_iff {reader : Reader} (hHolds : reader.HoldsNoCode) (back : Text) :
    isCodeAhead old.length ((old ++ back).zip (reader.regionsFrom (old ++ back))) = true ↔
      reader.IsInCode := by
  constructor
  · intro hCode
    obtain ⟨c, rest, rfl⟩ := List.exists_cons_of_ne_nil hOld.ne_nil
    simp only [isCodeAhead, List.cons_append, Reader.regionsFrom, List.zip_cons_cons,
      List.length_cons, List.take_succ_cons, List.all_cons, Bool.and_eq_true, beq_iff_eq] at hCode
    have hLine : c ≠ '\n' := by
      rintro rfl
      have hNo := hOld.isName '\n' List.mem_cons_self
      cases hNo
    exact (Reader.step_of_code hHolds hCode.1 hLine).1
  · intro hCode
    rw [hCode.regionsFrom_eq, Reader.regionsFrom_inCode _ fun c hc => hOld.isPlain hc]
    have hRegions : ((old ++ back).zip (List.replicate old.length Region.code ++
        (Reader.inCode (reader.behind.after old)).regionsFrom back)).take old.length =
          old.zip (List.replicate old.length .code) := by
      rw [List.zip_append (by rw [List.length_replicate])]
      exact List.take_left' (by rw [List.length_zip, List.length_replicate, Nat.min_self])
    unfold isCodeAhead
    rw [hRegions]
    apply List.all_eq_true.mpr
    intro unit hUnit
    rw [List.eq_of_mem_replicate (List.of_mem_zip hUnit).2]
    rfl

/-- Behind a word in code, its characters with their regions left out. -/
theorem drop_zip_regionsFrom {reader : Reader} (hCode : reader.IsInCode) (back : Text) :
    ((old ++ back).zip (reader.regionsFrom (old ++ back))).drop old.length =
      back.zip ((Reader.inCode (reader.behind.after old)).regionsFrom back) := by
  rw [hCode.regionsFrom_eq, Reader.regionsFrom_inCode _ fun c hc => hOld.isPlain hc,
    List.zip_append (by rw [List.length_replicate])]
  exact List.drop_left' (by rw [List.length_zip, List.length_replicate, Nat.min_self])

/-- Inside a word no other word begins. -/
theorem IsPlainWord.isBoundary_eq_false {before : Option Char}
    (hBefore : before.any Text.isWord = true) : Text.isBoundary before old.head? = false := by
  obtain ⟨first, name, rfl⟩ := List.exists_cons_of_ne_nil hOld.ne_nil
  have hFirst := hOld.isWord first List.mem_cons_self
  unfold Text.isBoundary
  rw [hBefore, List.head?_cons, Option.any_some, hFirst]
  rfl

/-- Behind a whole word, no word goes on. -/
theorem IsPlainWord.isWord_eq_false_of_isBoundary {back : Text}
    (hAfter : Text.isBoundary old.getLast? back.head? = true) :
    ∀ c ∈ back.head?, Text.isWord c = false := by
  intro c hc
  unfold Text.isBoundary at hAfter
  rw [hOld.any_getLast?, Option.mem_def.mp hc] at hAfter
  simpa using hAfter

/-- Renaming reads a text along with the reader, `keep` characters being passed over. -/
theorem codeRenamed_replaceWords {reader : Reader} (hHolds : reader.HoldsNoCode) (keep : Nat)
    (before : Option Char) (text : Text)
    (hKeep : keep ≠ 0 → before.any Text.isWord = true ∧
      ∀ c ∈ text.take keep, Text.isWord c = true) :
    CodeRenamed old new reader before text
      (replaceWords old new 0 keep before (text.zip (reader.regionsFrom text))) := by
  induction hLength : text.length using Nat.strongRecOn generalizing reader keep before text with
  | ind length ih =>
    subst hLength
    cases text with
    | nil => cases keep <;> exact .nil
    | cons c rest =>
      have hRest (keep : Nat) (hKeep : keep ≠ 0 → Text.isWord c = true ∧
          ∀ d ∈ rest.take keep, Text.isWord d = true) :
          CodeRenamed old new (reader.step c rest).1 (some c) rest (replaceWords old new 0 keep
            (some c) (rest.zip ((reader.step c rest).1.regionsFrom rest))) :=
        ih rest.length (Nat.lt_succ_self _) (Reader.holdsNoCode_step hHolds c rest) keep (some c)
          rest (fun hSome => by simpa using hKeep hSome) rfl
      cases keep with
      | succ keep =>
        obtain ⟨hBefore, hAhead⟩ := hKeep (Nat.succ_ne_zero keep)
        rw [List.take_succ_cons, List.forall_mem_cons] at hAhead
        refine .keep (fun back hText hBoundary _ => ?_) (hRest keep fun _ => hAhead)
        rw [hOld.isBoundary_eq_false hBefore] at hBoundary
        cases hBoundary
      | zero =>
        have hChars : ((c :: rest).zip (reader.regionsFrom (c :: rest))).map Prod.fst = c :: rest :=
          List.map_fst_zip (Nat.le_of_eq (reader.length_regionsFrom (c :: rest)).symm)
        by_cases hWord :
            isWordAhead old before ((c :: rest).zip (reader.regionsFrom (c :: rest))) = true
        · obtain ⟨back, hText, hBefore, hAfter⟩ := isWordAhead_iff.mp hWord
          rw [hChars] at hText
          have hCodeIff := isCodeAhead_iff hOld hHolds back
          rw [← hText] at hCodeIff
          by_cases hInCode : reader.IsInCode
          · have hShorter : back.length < (c :: rest).length := by
              have hPos := List.length_pos_iff.mpr hOld.ne_nil
              rw [hText, List.length_append]
              omega
            have hDrop := drop_zip_regionsFrom hOld hInCode back
            rw [← hText] at hDrop
            rw [replaceWords_of_isWordAhead hOld.ne_nil hWord (hCodeIff.mpr hInCode), hDrop, hText]
            exact .word hInCode hBefore hAfter (ih _ hShorter (Reader.holdsNoCode_inCode _) 0 _ back
              (fun hSome => absurd rfl hSome) rfl)
          · -- the word stays, and its other characters are passed over
            rw [Reader.regionsFrom, List.zip_cons_cons] at hWord hCodeIff ⊢
            rw [replaceWords, if_pos hWord, if_neg (mt hCodeIff.mp hInCode)]
            refine .keep (fun _ _ _ _ => hInCode) (hRest _ fun _ => ?_)
            have hWords : ∀ d ∈ (c :: rest).take old.length, Text.isWord d = true := by
              rw [hText, List.take_left]
              exact hOld.isWord
            obtain ⟨first, name, rfl⟩ := List.exists_cons_of_ne_nil hOld.ne_nil
            exact List.forall_mem_cons.mp hWords
        · have hNoWord (back : Text) (hText : c :: rest = old ++ back)
              (hBefore : Text.isBoundary before old.head? = true)
              (hAfter : Text.isBoundary old.getLast? back.head? = true) : ¬reader.IsInCode :=
            absurd (isWordAhead_iff.mpr ⟨back, hChars.trans hText, hBefore, hAfter⟩) hWord
          rw [Reader.regionsFrom, List.zip_cons_cons] at hWord ⊢
          rw [replaceWords, if_neg hWord]
          exact .keep hNoWord (hRest 0 fun hSome => absurd rfl hSome)

/-- Renaming a name. -/
theorem codeRenamed_renameWord (text : Text) :
    CodeRenamed old new .start none text (renameWord old new text) := by
  have hUnits := @codeRenamed_replaceWords old new hOld .start (Reader.holdsNoCode_inCode _) 0 none
    text fun hSome => absurd rfl hSome
  obtain ⟨first, name, rfl⟩ := List.exists_cons_of_ne_nil hOld.ne_nil
  exact hUnits

variable {reader : Reader} {before : Option Char} {text rest other : Text}

/-! ## What stays -/

omit hOld in
theorem CodeRenamed.eq_nil (h : CodeRenamed old new reader before [] other) (hOld : old ≠ []) :
    other = [] := by
  generalize hText : [] = text at h
  cases h with
  | nil => rfl
  | keep _ _ => cases hText
  | word _ _ _ _ => exact absurd (List.append_eq_nil_iff.mp hText.symm).1 hOld

omit hOld in
/-- A first character that is not the first of a word stays. -/
theorem CodeRenamed.of_cons {c : Char} (h : CodeRenamed old new reader before (c :: rest) other)
    (hNone : ∀ back, c :: rest = old ++ back → Text.isBoundary before old.head? = true →
      Text.isBoundary old.getLast? back.head? = true → False) :
    ∃ tail, other = c :: tail ∧ CodeRenamed old new (reader.step c rest).1 (some c) rest tail := by
  generalize hText : c :: rest = text at h
  cases h with
  | nil => cases hText
  | keep _ hRest =>
    obtain ⟨rfl, rfl⟩ := List.cons.inj hText
    exact ⟨_, rfl, hRest⟩
  | word _ hBefore hAfter _ => exact (hNone _ hText hBefore hAfter).elim

theorem CodeRenamed.of_cons_of_not_mem {c : Char}
    (h : CodeRenamed old new reader before (c :: rest) other) (hc : c ∉ old) :
    ∃ tail, other = c :: tail ∧ CodeRenamed old new (reader.step c rest).1 (some c) rest tail := by
  apply h.of_cons
  intro back hText _ _
  obtain ⟨first, name, rfl⟩ := List.exists_cons_of_ne_nil hOld.ne_nil
  obtain ⟨rfl, -⟩ := List.cons.inj hText
  exact hc List.mem_cons_self

theorem IsPlainWord.not_mem_of_isNameChar {c : Char} (hc : isNameChar c = false) : c ∉ old := by
  intro hMem
  rw [hOld.isName c hMem] at hc
  cases hc

theorem IsPlainWord.not_mem_of_isWord {c : Char} (hc : Text.isWord c = false) : c ∉ old := by
  intro hMem
  rw [hOld.isWord c hMem] at hc
  cases hc

/-- What does not belong to the old name stays at the beginning. -/
theorem CodeRenamed.head?_eq (h : CodeRenamed old new reader before text other)
    (hFirst : ∀ c ∈ text.head?, c ∉ old) : other.head? = text.head? := by
  cases text with
  | nil => rw [h.eq_nil hOld.ne_nil]
  | cons c rest =>
    obtain ⟨tail, rfl, -⟩ := h.of_cons_of_not_mem hOld (hFirst c rfl)
    rfl

/-- Behind a word character, both texts begin with a word character or neither does. -/
theorem CodeRenamed.any_head?_eq (h : CodeRenamed old new reader before text other)
    (hBefore : before.any Text.isWord = true) :
    other.head?.any Text.isWord = text.head?.any Text.isWord := by
  cases h with
  | nil => rfl
  | keep _ _ => rfl
  | word _ hBoundary _ _ =>
    rw [hOld.isBoundary_eq_false hBefore] at hBoundary
    cases hBoundary

/-- Behind a word character, what is written begins with the same word characters. -/
theorem CodeRenamed.exists_of_append {front back : Text}
    (hFront : ∀ c ∈ front, Text.isWord c = true) (hBefore : before.any Text.isWord = true)
    (h : CodeRenamed old new reader before text (front ++ back)) :
    ∃ rest, text = front ++ rest ∧ back.head?.any Text.isWord = rest.head?.any Text.isWord := by
  induction front generalizing reader before text with
  | nil => exact ⟨text, rfl, h.any_head?_eq hOld hBefore⟩
  | cons c rest ih =>
    obtain ⟨hc, hRest⟩ := List.forall_mem_cons.mp hFront
    rw [List.cons_append] at h
    generalize hText : c :: (rest ++ back) = other at h
    cases h with
    | nil => cases hText
    | keep _ hTail =>
      obtain ⟨rfl, rfl⟩ := List.cons.inj hText
      obtain ⟨tail, rfl, hSame⟩ := ih hRest (Option.any_some.trans hc) hTail
      exact ⟨tail, rfl, hSame⟩
    | word _ hBoundary _ _ =>
      rw [hOld.isBoundary_eq_false hBefore] at hBoundary
      cases hBoundary

variable (hNew : IsPlainWord new)

include hNew

/-- A character that belongs to no name stands at the beginning of both texts or of none. -/
theorem CodeRenamed.head?_eq_some_iff (h : CodeRenamed old new reader before text other) {c : Char}
    (hc : isNameChar c = false) : other.head? = some c ↔ text.head? = some c := by
  have hNot {word back : Text} (hWord : IsPlainWord word) : (word ++ back).head? ≠ some c := by
    obtain ⟨first, name, rfl⟩ := List.exists_cons_of_ne_nil hWord.ne_nil
    rintro ⟨⟩
    exact hWord.not_mem_of_isNameChar hc List.mem_cons_self
  cases h with
  | nil => exact Iff.rfl
  | keep _ _ => exact Iff.rfl
  | word _ _ _ _ => exact iff_of_false (hNot hNew) (hNot hOld)

theorem CodeRenamed.any_isNameChar_eq (h : CodeRenamed old new reader before text other) :
    other.head?.any isNameChar = text.head?.any isNameChar := by
  have hAny {word back : Text} (hWord : IsPlainWord word) :
      (word ++ back).head?.any isNameChar = true := by
    obtain ⟨first, name, rfl⟩ := List.exists_cons_of_ne_nil hWord.ne_nil
    exact hWord.isName first List.mem_cons_self
  cases h with
  | nil => rfl
  | keep _ _ => rfl
  | word _ _ _ _ => rw [hAny hNew, hAny hOld]

theorem CodeRenamed.isTwiceAt_eq (h : CodeRenamed old new reader before text other)
    (quote : Quote) : quote.isTwiceAt other = quote.isTwiceAt text := by
  have hQuote : isNameChar quote.char = false := by cases quote <;> rfl
  have hIff {text : Text} {c : Char} : quote.isTwiceAt (c :: text) = true ↔
      c = quote.char ∧ text.head? = some quote.char := by
    unfold Quote.isTwiceAt Text.startsWith
    cases text with
    | nil => simp [List.isPrefixOf]
    | cons d rest =>
      simp only [List.isPrefixOf, Bool.and_true, Bool.and_eq_true, beq_iff_eq, List.head?_cons,
        Option.some.injEq]
      exact and_congr eq_comm eq_comm
  have hNot {word back : Text} (hWord : IsPlainWord word) :
      quote.isTwiceAt (word ++ back) = false := by
    obtain ⟨first, name, rfl⟩ := List.exists_cons_of_ne_nil hWord.ne_nil
    rw [← Bool.not_eq_true, List.cons_append, hIff]
    rintro ⟨rfl, -⟩
    exact hWord.not_mem_of_isNameChar hQuote List.mem_cons_self
  cases h with
  | nil => rfl
  | keep _ hRest => rw [Bool.eq_iff_iff, hIff, hIff, hRest.head?_eq_some_iff hOld hNew hQuote]
  | word _ _ _ _ => rw [hNot hNew, hNot hOld]

/-- What is ahead decides alike in both texts. -/
theorem CodeRenamed.step_eq (h : CodeRenamed old new reader before text other)
    (first : Reader) (c : Char) : first.step c other = first.step c text := by
  have hSlash := propext (h.head?_eq_some_iff hOld hNew (c := '/') rfl)
  have hStar := propext (h.head?_eq_some_iff hOld hNew (c := '*') rfl)
  have hQuotes := h.isTwiceAt_eq hOld hNew
  have hRead : first.mode.read first.behind c other = first.mode.read first.behind c text := by
    cases first.mode with
    | code => simp only [Mode.read, hSlash, hStar, hQuotes]
    | lineComment => rfl
    | blockComment depth => simp only [Mode.read, hSlash, hStar]
    | string quote triple raw => simp only [Mode.read, hQuotes]
  unfold Reader.step
  rw [hRead]

end XdrBindings.Code
