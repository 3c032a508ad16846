import XdrBindings.Proofs.Idl.Gaps
import XdrBindings.Proofs.Idl.Spelling

/-!
# Tokens under any layout

A token may be written in many ways: a number has a sign, zeros in front of it, and a base, and the
digits of base sixteen come in both cases.  Between two tokens there may be white space, comments
that end with their line and closed comments, in any number and order, and these may look like
tokens or like each other.  However the tokens are written and whatever stands between them, reading
gives back their kinds.

## Main results

* `Separates.isGap` — a separator is a gap wherever it stands.
* `Spells.exists_lexes` — a spelling is read as its token.
* `tokenize_renders` — tokens that are laid out are read again, with the end mark behind them.
-/

namespace XdrBindings.Idl

/-! ## Separators -/

/-- What may stand between two tokens: white space, comments that end with their line and closed
comments, one or more of them. -/
inductive Separates : Text → Prop
  | space {c : Char} (h : isSpace c = true) : Separates [c]
  | lineComment {body : Text} (hBody : '\n' ∉ body) : Separates ('/' :: '/' :: (body ++ ['\n']))
  | blockComment {body : Text} (hBody : ¬['*', '/'] <:+: body) :
      Separates ('/' :: '*' :: (body ++ ['*', '/']))
  | append {first next : Text} (hFirst : Separates first) (hNext : Separates next) :
      Separates (first ++ next)

namespace Separates

variable {gap : Text}

/-- A separator is a gap wherever it stands. -/
theorem isGap (h : Separates gap) (front back : Text) : IsGap front gap back := by
  induction h generalizing front back with
  | space hSpace => exact Filler.isGap (.space hSpace)
  | @lineComment body hBody =>
    -- the newline is not part of the comment
    have hComment : Filler front ('\n' :: back) ('/' :: '/' :: body) :=
      .lineComment hBody (by rintro c ⟨⟩; rfl)
    exact hComment.isGap.append (Filler.isGap (.space rfl))
  | blockComment hBody => exact Filler.isGap (.blockComment hBody)
  | @append first next _ _ ihFirst ihNext => exact (ihFirst _ _).append (ihNext _ _)

/-- No word goes on into a separator. -/
theorem endsWord (h : Separates gap) (back : Text) : EndsWord (gap ++ back) := by
  induction h generalizing back with
  | @space c hSpace =>
    rintro d ⟨⟩
    cases hWord : isWordChar c with
    | false => rfl
    | true => exact hSpace.symm.trans (begins_of_isWordChar hWord).1
  | lineComment => rintro c ⟨⟩; rfl
  | blockComment => rintro c ⟨⟩; rfl
  | append _ _ ihFirst _ =>
    rw [List.append_assoc]
    exact ihFirst _

end Separates

/-! ## Spellings -/

/-- The ways of writing a token.  A number has a sign or not and any number of zeros in front of its
digits; the mark and the digits of base sixteen may be written in both cases. -/
inductive Spells : Text → TokenKind → Prop
  | keyword (word : Keyword) : Spells word.spelling.toList (.keyword word)
  | identifier {name : String} (h : isIdentifier name = true) :
      Spells name.toList (.identifier name)
  | decimal (negative : Bool) (zeros magnitude : Nat)
      (hFits : -2 ^ 63 ≤ signed negative magnitude ∧ signed negative magnitude < 2 ^ 63) :
      Spells (signText negative ++ (List.replicate zeros '0' ++ Nat.toDigits 10 magnitude))
        (.number (signed negative magnitude))
  | hexadecimal (negative : Bool) {mark : Char} (hMark : mark.toLower = 'x')
      (zeros magnitude : Nat) {digits : Text}
      (hDigits : digits.map Char.toLower = List.replicate zeros '0' ++ Nat.toDigits 16 magnitude)
      (hFits : -2 ^ 63 ≤ signed negative magnitude ∧ signed negative magnitude < 2 ^ 63) :
      Spells (signText negative ++ '0' :: mark :: digits) (.number (signed negative magnitude))
  | symbol (mark : Symbol) : Spells [mark.char] (.symbol mark)

theorem fitsWord_of_range {value : Int} (h : -2 ^ 63 ≤ value ∧ value < 2 ^ 63) :
    fitsWord value = true := by
  rw [fitsWord_iff]
  omega

theorem ofDigits_zeros (base zeros : Nat) (digits : Text) :
    ofDigits base (List.replicate zeros '0' ++ digits) = ofDigits base digits := by
  have hZeros : (List.replicate zeros '0').foldl
      (fun value c => value * base + digitValue c) 0 = 0 := by
    induction zeros with
    | zero => rfl
    | succ zeros ih =>
      rw [List.replicate_succ, List.foldl_cons, Nat.zero_mul]
      exact ih
  rw [ofDigits, List.foldl_append, hZeros]
  rfl

/-! ### Base sixteen -/

theorem eq_or_of_toLower {c d : Char} (h : c.toLower = d) :
    c = d ∨ 65 ≤ c.toNat ∧ c.toNat + 32 = d.toNat := by
  unfold Char.toLower at h
  split at h
  · rename_i hUpper
    obtain ⟨hLower, hLe⟩ := hUpper
    subst h
    rw [ge_iff_le, UInt32.le_iff_toNat_le] at hLower
    rw [UInt32.le_iff_toNat_le] at hLe
    refine .inr ⟨hLower, ?_⟩
    show c.val.toNat + 32 = (c.val + 32).toNat
    have hLess : c.val.toNat + 32 < 2 ^ 32 := by
      have hTop : 'Z'.val.toNat = 90 := rfl
      omega
    rw [UInt32.toNat_add]
    exact (Nat.mod_eq_of_lt hLess).symm
  · exact .inl h

/-- A digit of base sixteen has its value in both cases. -/
theorem hexDigit_of_toLower {c : Char} {digit : Nat} (hDigit : digit < 16)
    (h : c.toLower = digit.digitChar) : isHexDigit c = true ∧ digitValue c = digit := by
  rcases eq_or_of_toLower h with rfl | ⟨hUpper, hLower⟩
  · clear h
    decide +revert
  · have hChar : c = Char.ofNat (digit.digitChar.toNat - 32) := by
      rw [← hLower, Nat.add_sub_cancel, Char.ofNat_toNat]
    clear h hLower
    subst hChar
    decide +revert

theorem exists_of_mem_toDigits {base value : Nat} (hBase : 1 < base) {c : Char}
    (h : c ∈ Nat.toDigits base value) : ∃ digit < base, c = digit.digitChar := by
  induction value using Nat.strong_induction_on with
  | _ value ih =>
    rw [Nat.toDigits_eq_if hBase] at h
    split at h
    · rename_i hLess
      exact ⟨value, hLess, List.mem_singleton.mp h⟩
    · rcases List.mem_append.mp h with hFront | hLast
      · exact ih (value / base) (Nat.div_lt_self (by omega) hBase) hFront
      · exact ⟨value % base, Nat.mod_lt value (by omega), List.mem_singleton.mp hLast⟩

section

variable {digits : Text} {zeros magnitude : Nat}
  (hDigits : digits.map Char.toLower = List.replicate zeros '0' ++ Nat.toDigits 16 magnitude)

include hDigits

theorem exists_digit_of_mem : ∀ c ∈ digits, ∃ digit < 16, c.toLower = digit.digitChar := by
  intro c hc
  have hMem : c.toLower ∈ List.replicate zeros '0' ++ Nat.toDigits 16 magnitude :=
    hDigits ▸ List.mem_map_of_mem hc
  rcases List.mem_append.mp hMem with hZero | hDigit
  · exact ⟨0, by decide, List.eq_of_mem_replicate hZero⟩
  · exact exists_of_mem_toDigits (by decide) hDigit

theorem ofDigits_sixteen : ofDigits 16 digits = magnitude := by
  have hCase : ofDigits 16 (digits.map Char.toLower) = ofDigits 16 digits := by
    rw [ofDigits, List.foldl_map]
    refine List.foldl_ext _ _ _ fun value c hc => ?_
    obtain ⟨digit, hDigit, hLower⟩ := exists_digit_of_mem hDigits c hc
    rw [hLower, digitValue_digitChar hDigit, (hexDigit_of_toLower hDigit hLower).2]
  rw [← hCase, hDigits, ofDigits_zeros, ofDigits_toDigits (by decide) (by decide)]

end

theorem isWordChar_of_isHexDigit {c : Char} (h : isHexDigit c = true) : isWordChar c = true := by
  simp only [isHexDigit, Bool.or_eq_true, Bool.and_eq_true, decide_eq_true_eq] at h
  rcases h with (hDigit | ⟨hFirst, hLast⟩) | ⟨hFirst, hLast⟩
  · exact isWordChar_of_isDigit hDigit
  · have hLower : c.isLower = true := by
      simp only [Char.isLower, Bool.and_eq_true, decide_eq_true_eq]
      exact ⟨hFirst, UInt32.le_trans hLast (by decide)⟩
    simp [isWordChar, Char.isAlphanum, Char.isAlpha, hLower]
  · have hUpper : c.isUpper = true := by
      simp only [Char.isUpper, decide_eq_true_eq]
      exact ⟨hFirst, UInt32.le_trans hLast (by decide)⟩
    simp [isWordChar, Char.isAlphanum, Char.isAlpha, hUpper]

theorem eq_of_toLower_mark {mark : Char} (hMark : mark.toLower = 'x') :
    mark = 'x' ∨ mark = 'X' := by
  rcases eq_or_of_toLower hMark with hLower | ⟨-, hUpper⟩
  · exact .inl hLower
  · exact .inr (Char.toNat_inj.mp (Nat.add_right_cancel hUpper))

/-- A sign, the mark of base sixteen and digits are read up to the end of the digits. -/
theorem Numeral.ofText_hexadecimal (negative : Bool) {mark : Char} (hMark : mark.toLower = 'x')
    {digits back : Text} (hAll : ∀ c ∈ digits, isHexDigit c = true) (hBack : EndsWord back) :
    Numeral.ofText (signText negative ++ ('0' :: mark :: digits ++ back)) =
      ⟨signText negative, ['0', mark], digits⟩ := by
  have hSign : signOf (signText negative ++ ('0' :: mark :: digits ++ back)) = signText negative :=
    signOf_signText negative rfl (mark :: digits ++ back)
  have hHex : hexMarkOf ('0' :: mark :: digits ++ back) = ['0', mark] := by
    rcases eq_of_toLower_mark hMark with rfl | rfl <;> rfl
  have hTake : (digits ++ back).takeWhile isHexDigit = digits := by
    refine Text.takeWhile_append_of_head hAll fun c hc => ?_
    cases hDigit : isHexDigit c with
    | false => rfl
    | true => exact (isWordChar_of_isHexDigit hDigit).symm.trans (hBack c hc)
  unfold Numeral.ofText
  dsimp only
  rw [hSign, List.drop_left, hHex]
  exact congrArg (Numeral.mk (signText negative) ['0', mark]) hTake

/-! ### All spellings -/

theorem exists_lexes_hexadecimal {negative : Bool} {mark : Char}
    (hMark : mark.toLower = 'x') {digits : Text} {zeros magnitude : Nat}
    (hDigits : digits.map Char.toLower = List.replicate zeros '0' ++ Nat.toDigits 16 magnitude)
    (hFits : fitsWord (signed negative magnitude) = true) :
    ∃ first rest, signText negative ++ '0' :: mark :: digits = first :: rest ∧
      Lexes first rest (.number (signed negative magnitude)) := by
  have hAll : ∀ c ∈ digits, isHexDigit c = true := by
    intro c hc
    obtain ⟨digit, hDigit, hLower⟩ := exists_digit_of_mem hDigits c hc
    exact (hexDigit_of_toLower hDigit hLower).1
  have hWord : ∀ c ∈ '0' :: mark :: digits, isWordChar c = true := by
    rintro c (_ | ⟨_, _ | ⟨_, hc⟩⟩)
    · rfl
    · rcases eq_of_toLower_mark hMark with rfl | rfl <;> rfl
    · exact isWordChar_of_isHexDigit (hAll c hc)
  have hSome : digits ≠ [] := by
    rintro rfl
    have hLength := congrArg List.length hDigits
    have hPositive := List.length_pos_iff.mpr (Nat.toDigits_ne_nil (n := magnitude) (b := 16))
    simp only [List.map_nil, List.length_nil, List.length_append] at hLength
    omega
  have hKind : Numeral.kind ⟨signText negative, ['0', mark], digits⟩ =
      .ok (.number (signed negative magnitude)) := by
    have hValue := Numeral.value_signed negative ['0', mark] digits
    rw [List.isEmpty_cons, if_neg Bool.false_ne_true, ofDigits_sixteen hDigits] at hValue
    rw [Numeral.kind_eq, hValue, hFits]
    simp [hSome]
  exact exists_lexes_numeral rfl hWord rfl
    (fun back hBack => Numeral.ofText_hexadecimal negative hMark hAll hBack) hKind

/-- A spelling is read as its token wherever a word ends behind it. -/
theorem Spells.exists_lexes {text : Text} {kind : TokenKind} (h : Spells text kind) :
    ∃ first rest, text = first :: rest ∧ Lexes first rest kind := by
  cases h with
  | keyword word => exact exists_lexes_keyword word
  | identifier hName => exact exists_lexes_identifier hName
  | decimal negative zeros magnitude hFits =>
    have hValue : ofDigits 10 (List.replicate zeros '0' ++ Nat.toDigits 10 magnitude) =
        magnitude := by
      rw [ofDigits_zeros, ofDigits_toDigits (by decide) (by decide)]
    have hAll : ∀ c ∈ List.replicate zeros '0' ++ Nat.toDigits 10 magnitude, c.isDigit = true := by
      intro c hc
      rcases List.mem_append.mp hc with hZero | hDigit
      · exact List.eq_of_mem_replicate hZero ▸ rfl
      · exact Nat.isDigit_of_mem_toDigits (by decide) (by decide) hDigit
    have hLexes := exists_lexes_digits negative
      (List.append_ne_nil_of_right_ne_nil _ Nat.toDigits_ne_nil) hAll
      (hValue.symm ▸ fitsWord_of_range hFits)
    rwa [hValue] at hLexes
  | hexadecimal negative hMark zeros magnitude hDigits hFits =>
    exact exists_lexes_hexadecimal hMark hDigits (fitsWord_of_range hFits)
  | symbol mark => exact ⟨mark.char, [], rfl, lexes_symbol mark⟩

/-! ## Layouts -/

/-- `Renders kinds source` says that the source is spellings of the tokens in their order, with a
separator in front of each and behind the last. -/
inductive Renders : List TokenKind → Text → Prop
  | nil {gap : Text} (hGap : Separates gap) : Renders [] gap
  | cons {gap text rest : Text} {kind : TokenKind} {kinds : List TokenKind}
      (hGap : Separates gap) (hText : Spells text kind) (hRest : Renders kinds rest) :
      Renders (kind :: kinds) (gap ++ (text ++ rest))

theorem items_gap {front gap back : Text} (h : IsGap front gap back) :
    items (.behind front) (gap ++ back) = items (.behind (front ++ gap)) back := by
  rw [items_eq, skipGap_gap h, ← items_eq]

namespace Renders

variable {kinds : List TokenKind} {source : Text}

theorem endsWord (h : Renders kinds source) : EndsWord source := by
  cases h with
  | nil hGap => exact List.append_nil source ▸ hGap.endsWord []
  | cons hGap _ _ => exact hGap.endsWord _

/-- Reading goes through a layout one token after the other. -/
theorem exists_items (h : Renders kinds source) (front : Text) :
    ∃ tokens : List Token, items (.behind front) source = tokens.map .ok ∧
      tokens.map Token.kind = kinds ++ [.finish] := by
  induction h generalizing front with
  | @nil gap hGap =>
    have hItems := items_gap (hGap.isGap front [])
    rw [List.append_nil, items_nil] at hItems
    exact ⟨[_], hItems, rfl⟩
  | @cons gap text rest kind kinds hGap hText hRest ih =>
    obtain ⟨first, others, rfl, hLexes⟩ := hText.exists_lexes
    obtain ⟨span, hToken⟩ := items_lexeme hLexes (.behind (front ++ gap)) hRest.endsWord
    obtain ⟨tokens, hTokens, hKinds⟩ := ih (front ++ gap ++ first :: others)
    refine ⟨⟨kind, first :: others, .behind (front ++ gap), span⟩ :: tokens, ?_, ?_⟩
    · rw [items_gap (hGap.isGap front _), List.cons_append, hToken, Cursor.advance_behind, hTokens]
      rfl
    · rw [List.map_cons, hKinds, List.cons_append]

end Renders

/-- Tokens that are laid out in any way are read again, with the end mark behind them. -/
theorem tokenize_renders {kinds : List TokenKind} {source : Text} (h : Renders kinds source) :
    ∃ tokens, tokenize source = .ok tokens ∧ tokens.map Token.kind = kinds ++ [.finish] := by
  obtain ⟨tokens, hItems, hKinds⟩ := h.exists_items []
  refine ⟨tokens, ?_, hKinds⟩
  rw [tokenize, itemsOf, Cursor.start_eq_behind, hItems, mapM_id_map_ok]

/-- A star in front of a comment, a number of base sixteen and a name, with comments that look like
each other's openings. -/
theorem tokenize_renders_comments :
    Renders [.symbol .star, .number (-255), .identifier "x1"]
      "/***/*/* // **/-0x0fF// /*\nx1 \t".toList ∧
    ∃ tokens, tokenize "/***/*/* // **/-0x0fF// /*\nx1 \t".toList = .ok tokens ∧
      tokens.map Token.kind =
        [.symbol .star, .number (-255), .identifier "x1", .finish] := by
  have hNumber : Spells ['-', '0', 'x', '0', 'f', 'F'] (.number (-255)) :=
    .hexadecimal true rfl 1 255 (by decide) (by decide)
  have hComment : ¬['*', '/'] <:+: [' ', '/', '/', ' ', '*'] := by decide
  have hLine : '\n' ∉ [' ', '/', '*'] := by decide
  have hRenders : Renders [.symbol .star, .number (-255), .identifier "x1"]
      "/***/*/* // **/-0x0fF// /*\nx1 \t".toList :=
    .cons (.blockComment (by decide : ¬['*', '/'] <:+: ['*'])) (.symbol .star)
      (.cons (.blockComment hComment) hNumber
        (.cons (.lineComment hLine) (.identifier (by decide))
          (.nil (.append (.space rfl) (.space rfl)))))
  exact ⟨hRenders, tokenize_renders hRenders⟩

end XdrBindings.Idl
