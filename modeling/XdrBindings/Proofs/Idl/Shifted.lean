import XdrBindings.Proofs.Idl.Places

/-!
# Tokens behind a newline

A newline ends whatever stands in front of it but an open comment: words, numbers, comments of one
line and directives.  Behind it the reader knows nothing of what it has read but how many lines and
bytes there were.  So two sources with a newline between them are read one after the other, the
second one further down.

## Main results

* `items_shift` — from a place further down the same is read, further down.
* `items_newline` — what is read up to a newline is read as if the source ended there.
* `tokenize_across_newline` — the tokens or the error of two sources with a newline between them.
-/

namespace XdrBindings.Idl

variable {lines bytes : Nat} {cursor place : Cursor} {text back : Text}

/-! ## Further down -/

/-- A place some lines further down. -/
def Position.shift (lines : Nat) (position : Position) : Position :=
  { position with line := position.line + lines }

/-- A token some lines and bytes further down. -/
def Token.shift (lines bytes : Nat) (token : Token) : Token :=
  { token with
    position := token.position.shift lines
    span := ⟨token.span.start + bytes, token.span.stop + bytes⟩ }

@[simp]
theorem Token.kind_shift (token : Token) : (token.shift lines bytes).kind = token.kind := rfl

/-- An error some lines further down. -/
def LexicalFault.shift (lines : Nat) (fault : LexicalFault) : LexicalFault :=
  { fault with position := fault.position.shift lines }

/-- The reader some lines and bytes further down. -/
def Cursor.shift (lines bytes : Nat) (cursor : Cursor) : Cursor :=
  { cursor with position := cursor.position.shift lines, offset := cursor.offset + bytes }

/-- What the reader is in the middle of, some lines further down. -/
def Gap.shift (lines : Nat) : Gap → Gap
  | .space => .space
  | .line => .line
  | .opening opened => .opening (opened.shift lines)
  | .block opened star => .block (opened.shift lines) star

theorem Cursor.step_shift (c : Char) :
    (cursor.shift lines bytes).step c = (cursor.step c).shift lines bytes := by
  by_cases hNewline : c = '\n' <;>
    simp [step, shift, Position.shift, hNewline, Nat.add_right_comm]

theorem Cursor.advance_shift :
    (cursor.shift lines bytes).advance text = (cursor.advance text).shift lines bytes := by
  induction text generalizing cursor with
  | nil => rfl
  | cons c rest ih =>
    show ((cursor.shift lines bytes).step c).advance rest = _
    rw [step_shift, ih]
    rfl

/-- The reader behind a newline stands as at the beginning of a source, further down. -/
theorem Cursor.behind_newline (front : Text) :
    behind (front ++ ['\n']) =
      start.shift (front.count '\n' + 1) (front ++ ['\n']).byteSize := by
  simp [behind, start, shift, Position.behind, Position.shift, lastLine_newline,
    List.count_append]

/-- What skipping gives, further down. -/
def shiftSkipped (lines bytes : Nat) :
    Except LexicalFault (Cursor × Text) → Except LexicalFault (Cursor × Text)
  | .ok (place, rest) => .ok (place.shift lines bytes, rest)
  | .error fault => .error (fault.shift lines)

theorem skipGap_shift (gap : Gap) :
    skipGap (gap.shift lines) (cursor.shift lines bytes) text =
      shiftSkipped lines bytes (skipGap gap cursor text) := by
  induction text generalizing gap cursor with
  | nil => cases gap <;> rfl
  | cons c rest ih =>
    have hStep (gap : Gap) := @ih (cursor.step c) gap
    cases gap with
    | space =>
      simp only [Gap.shift, skipGap, Cursor.step_shift]
      have hBlank : (cursor.shift lines bytes).lineIsBlank = cursor.lineIsBlank := rfl
      rw [hBlank]
      split
      · exact hStep .space
      split
      · exact hStep .line
      split
      · exact hStep (.opening cursor.position)
      split
      · exact hStep .line
      · rfl
    | line =>
      simp only [Gap.shift, skipGap, Cursor.step_shift]
      split
      · exact hStep .space
      · exact hStep .line
    | opening opened =>
      simp only [Gap.shift, skipGap, Cursor.step_shift]
      exact hStep (.block opened false)
    | block opened star =>
      simp only [Gap.shift, skipGap, Cursor.step_shift]
      split
      · exact hStep .space
      · exact hStep (.block opened (c == '*'))

/-- An item of a source, further down. -/
def shiftItem (lines bytes : Nat) : Except LexicalFault Token → Except LexicalFault Token
  | .ok token => .ok (token.shift lines bytes)
  | .error fault => .error (fault.shift lines)

/-- From a place further down the same is read, further down. -/
theorem items_shift (lines bytes : Nat) (cursor : Cursor) (text : Text) :
    items (cursor.shift lines bytes) text = (items cursor text).map (shiftItem lines bytes) := by
  have hShift (cursor : Cursor) (text : Text) :
      skipGap .space (cursor.shift lines bytes) text =
        shiftSkipped lines bytes (skipGap .space cursor text) := skipGap_shift .space
  -- what comes next: an open comment, the end of the text, no token, or a token
  fun_induction items cursor text with
  | case1 cursor text fault hSkip =>
    rw [items_eq, hShift, hSkip]
    rfl
  | case2 cursor text place hSkip =>
    rw [items_eq, hShift, hSkip]
    rfl
  | case3 cursor text place c rest hSkip cause hLexeme =>
    rw [items_eq, hShift, hSkip]
    dsimp only [shiftSkipped]
    rw [hLexeme]
    rfl
  | case4 cursor text place c rest hSkip kind lexeme hLexeme after ih =>
    rw [items_eq, hShift, hSkip]
    dsimp only [shiftSkipped]
    rw [hLexeme]
    dsimp only
    rw [Cursor.advance_shift, ih]
    rfl

/-! ## Up to a newline -/

theorem head?_newline {c : Char} (hNewline : c ≠ '\n') :
    (text ++ '\n' :: back).head? = some c ↔ text.head? = some c := by
  cases text with
  | nil => simp [hNewline.symm]
  | cons first rest => rfl

/-- What is left at the end of a source goes on behind the newline, where the reader skips on. -/
def skipOn (back : Text) : Cursor × Text → Except LexicalFault (Cursor × Text)
  | (place, []) => skipGap .space (place.step '\n') back
  | (place, c :: rest) => .ok (place, c :: (rest ++ '\n' :: back))

/-- Nothing but an open comment is skipped past a newline. -/
theorem skipGap_newline {gap : Gap} {reached : Cursor × Text} (back : Text)
    (h : skipGap gap cursor text = .ok reached) :
    skipGap gap cursor (text ++ '\n' :: back) = skipOn back reached := by
  induction text generalizing gap cursor with
  | nil =>
    cases gap with
    | space | line =>
      cases h
      rfl
    | opening opened => cases h
    | block opened star => cases h
  | cons c rest ih =>
    rw [List.cons_append]
    cases gap with
    | space =>
      rw [skipGap] at h ⊢
      simp only [head?_newline (c := '/') (by decide), head?_newline (c := '*') (by decide)]
      by_cases hSpace : isSpace c
      · rw [if_pos hSpace] at h ⊢
        exact ih h
      rw [if_neg hSpace] at h ⊢
      by_cases hLine : c = '/' ∧ rest.head? = some '/'
      · rw [if_pos hLine] at h ⊢
        exact ih h
      rw [if_neg hLine] at h ⊢
      by_cases hBlock : c = '/' ∧ rest.head? = some '*'
      · rw [if_pos hBlock] at h ⊢
        exact ih h
      rw [if_neg hBlock] at h ⊢
      by_cases hDirective : c = '%' ∧ cursor.lineIsBlank
      · rw [if_pos hDirective] at h ⊢
        exact ih h
      rw [if_neg hDirective] at h ⊢
      cases h
      rfl
    | line | opening opened | block opened star =>
      rw [skipGap] at h ⊢
      exact ih h

theorem takeWhile_newline {p : Char → Bool} (hNewline : p '\n' = false) (text back : Text) :
    (text ++ '\n' :: back).takeWhile p = text.takeWhile p := by
  induction text with
  | nil => simp [hNewline]
  | cons c rest ih => simp only [List.cons_append, List.takeWhile_cons, ih]

theorem signOf_newline (c : Char) (rest back : Text) :
    signOf (c :: (rest ++ '\n' :: back)) = signOf (c :: rest) := by
  by_cases hSign : c = '-' <;> simp [signOf, hSign]

theorem hexMarkOf_newline (text back : Text) :
    hexMarkOf (text ++ '\n' :: back) = hexMarkOf text := by
  match text with
  | [] => rfl
  | [c] =>
    have hOne : hexMarkOf [c] = [] := hexMarkOf_eq_nil nofun
    rw [hOne]
    refine hexMarkOf_eq_nil ?_
    rintro _ ⟨⟩
    decide
  | c :: d :: rest =>
    by_cases hZero : c = '0' <;> by_cases hMark : d = 'x' ∨ d = 'X'
    · subst hZero
      rcases hMark with rfl | rfl <;> rfl
    all_goals
      simp_all [hexMarkOf]

theorem ofText_newline (c : Char) (rest back : Text) :
    Numeral.ofText (c :: (rest ++ '\n' :: back)) = Numeral.ofText (c :: rest) := by
  have hSign := (signOf_begins (c :: rest)).length_le
  have hMark := (hexMarkOf_begins ((c :: rest).drop (signOf (c :: rest)).length)).length_le
  have hDigits (text : Text) : (text ++ '\n' :: back).takeWhile
      (if (hexMarkOf ((c :: rest).drop (signOf (c :: rest)).length)).isEmpty then Char.isDigit
        else isHexDigit) = _ := takeWhile_newline (by split <;> rfl) text back
  unfold Numeral.ofText
  dsimp only
  rw [signOf_newline, ← List.cons_append, List.drop_append_of_le_length hSign, hexMarkOf_newline,
    List.drop_append_of_le_length hMark, hDigits]

theorem startsNumber_newline (c : Char) (rest back : Text) :
    startsNumber (c :: (rest ++ '\n' :: back)) = startsNumber (c :: rest) := by
  cases rest with
  | nil => by_cases hSign : c = '-' <;> simp [startsNumber, hSign]
  | cons d rest => by_cases hSign : c = '-' <;> simp [startsNumber, hSign]

/-- A word, a number and a mark end in front of a newline. -/
theorem lexemeAt_newline (c : Char) (rest back : Text) :
    lexemeAt c (rest ++ '\n' :: back) = lexemeAt c rest := by
  unfold lexemeAt
  rw [takeWhile_newline rfl, startsNumber_newline, ofText_newline]

/-- Reading yields at least the end mark or an error. -/
theorem items_ne_nil (cursor : Cursor) (text : Text) : items cursor text ≠ [] := by
  rw [items_eq]
  split
  · exact List.cons_ne_nil _ _
  · exact List.cons_ne_nil _ _
  · split <;> exact List.cons_ne_nil _ _

theorem eq_nil_and_eq_of_singleton {tokens : List Token} {only last : Except LexicalFault Token}
    (h : [only] = tokens.map .ok ++ [last]) : tokens = [] ∧ only = last := by
  cases tokens with
  | nil => exact ⟨rfl, (List.cons.inj h).1⟩
  | cons first others => simp at h

/-- What is read from the last item on, where a newline and more text stand behind the source: in
place of an end mark the text behind the newline is read, and an error stays. -/
def readOn (front back : Text) : Except LexicalFault Token → List (Except LexicalFault Token)
  | .ok _ => items (.behind (front ++ ['\n'])) back
  | .error fault => [.error fault]

/-- Up to a newline is read what is read where the source ends there, unless a comment is open; then
reading goes on behind it. -/
theorem items_newline {tokens : List Token} {last : Except LexicalFault Token}
    (front text back : Text) (h : items (.behind front) text = tokens.map .ok ++ [last])
    (hLast : ∀ fault, last = .error fault → fault.cause ≠ .unterminatedComment) :
    items (.behind front) (text ++ '\n' :: back) =
      tokens.map .ok ++ readOn (front ++ text) back last := by
  induction hLength : text.length using Nat.strong_induction_on generalizing front text tokens with
  | _ length ih =>
    have hSkipped := skipped front text
    rw [items_eq] at h
    generalize hRead : skipGap .space (.behind front) text = result at h hSkipped
    cases hSkipped with
    | unterminated hGap hOpened =>
      -- the open comment is the only item
      obtain ⟨rfl, hFault⟩ := eq_nil_and_eq_of_singleton h
      exact absurd rfl (hLast _ hFault.symm)
    | @reached gap rest hGap =>
      rw [items_eq, skipGap_newline back hRead]
      cases rest with
      | nil =>
        obtain ⟨rfl, rfl⟩ := eq_nil_and_eq_of_singleton h
        rw [List.append_nil, skipOn, Cursor.step_behind, ← items_eq]
        rfl
      | cons c rest =>
        dsimp only [skipOn]
        rw [lexemeAt_newline]
        dsimp only at h
        cases hLexeme : lexemeAt c rest with
        | error cause =>
          rw [hLexeme] at h
          obtain ⟨rfl, rfl⟩ := eq_nil_and_eq_of_singleton h
          rfl
        | ok found =>
          rw [hLexeme] at h
          obtain ⟨kind, lexeme⟩ := found
          obtain ⟨hKind, tail, after, rfl, rfl⟩ := exists_of_lexemeAt hLexeme
          dsimp only at h ⊢
          rw [Cursor.advance_behind, List.tail_cons, List.drop_left] at h
          rw [Cursor.advance_behind, List.tail_cons, List.append_assoc tail, List.drop_left]
          cases tokens with
          | nil =>
            exact absurd (List.cons.inj h).2 (items_ne_nil _ _)
          | cons first others =>
            have hShorter : after.length < length := by
              simp only [← hLength, List.length_append, List.length_cons]
              omega
            rw [List.map_cons, List.cons_append] at h
            obtain ⟨hFirst, hOthers⟩ := List.cons.inj h
            rw [ih _ hShorter _ _ hOthers rfl, hFirst]
            simp

/-- What reading a whole source gives, further down. -/
def shiftResult (lines bytes : Nat) :
    Except LexicalFault (List Token) → Except LexicalFault (List Token)
  | .ok tokens => .ok (tokens.map (.shift lines bytes))
  | .error fault => .error (fault.shift lines)

theorem mapM_id_map_shiftItem (results : List (Except LexicalFault Token)) :
    (results.map (shiftItem lines bytes)).mapM id = shiftResult lines bytes (results.mapM id) := by
  induction results with
  | nil => rfl
  | cons result rest ih =>
    rw [List.map_cons, List.mapM_cons, List.mapM_cons, ih]
    cases result with
    | error fault => rfl
    | ok token => cases rest.mapM id <;> rfl

/-- Behind the tokens of a source and a newline stands what is read of the text behind it, further
down. -/
theorem tokenize_behind_newline {front : Text} {first : List Token} {last : Token} (back : Text)
    (hFront : tokenize front = .ok (first ++ [last])) :
    tokenize (front ++ '\n' :: back) =
      (shiftResult (front.count '\n' + 1) (front ++ ['\n']).byteSize (tokenize back)).map
        (first ++ ·) := by
  rw [tokenize, mapM_id_eq_ok_iff, itemsOf, Cursor.start_eq_behind, List.map_append] at hFront
  have hLast (fault : LexicalFault) (h : Except.ok last = (.error fault : Except _ Token)) :
      fault.cause ≠ .unterminatedComment := by cases h
  have hItems := items_newline [] front back hFront hLast
  rw [List.nil_append, readOn, Cursor.behind_newline, items_shift] at hItems
  rw [tokenize, itemsOf, Cursor.start_eq_behind, hItems, mapM_id_map_ok_append,
    mapM_id_map_shiftItem]
  rfl

/-- The tokens of two sources with a newline between them are those of the first one but for its end
mark, and those of the second one further down. -/
theorem tokenize_newline {front back : Text} {first second : List Token} {last : Token}
    (hFront : tokenize front = .ok (first ++ [last])) (hBack : tokenize back = .ok second) :
    tokenize (front ++ '\n' :: back) =
      .ok (first ++ second.map (.shift (front.count '\n' + 1) (front ++ ['\n']).byteSize)) := by
  rw [tokenize_behind_newline back hFront, hBack]
  rfl

/-- Reading a source is reading its front and reading what stands behind a newline in it.  If the
front is read, its tokens but for the end mark come first, and then the tokens or the error of the
rest, with as many bytes and lines more as the front and the newline have, and in the same columns.
If the front is not read, it has the same error for the whole source, unless this is a comment that
is not closed. -/
theorem tokenize_across_newline (front back : Text) :
    (∀ tokens, tokenize front = .ok tokens →
      ∃ read, tokens = read ++ [endOf front] ∧ (∀ token ∈ read, token.kind ≠ .finish) ∧
        tokenize (front ++ '\n' :: back) =
          (shiftResult ((front ++ ['\n']).count '\n') (front ++ ['\n']).byteSize
            (tokenize back)).map (read ++ ·)) ∧
    ∀ fault, tokenize front = .error fault → fault.cause ≠ .unterminatedComment →
      tokenize (front ++ '\n' :: back) = .error fault := by
  constructor
  · intro tokens hFront
    obtain ⟨read, rfl, hRead⟩ := exists_of_tokenize hFront
    have hLines : (front ++ ['\n']).count '\n' = front.count '\n' + 1 := by
      rw [List.count_append, List.count_singleton_self]
    refine ⟨read, rfl, hRead, ?_⟩
    rw [hLines]
    exact tokenize_behind_newline back hFront
  · intro fault hFront hCause
    obtain ⟨read, hItems⟩ := exists_of_tokenize_eq_error hFront
    rw [itemsOf, Cursor.start_eq_behind] at hItems
    have hLast (other : LexicalFault) (h : Except.error fault = (.error other : Except _ Token)) :
        other.cause ≠ .unterminatedComment := Except.error.inj h ▸ hCause
    rw [tokenize, itemsOf, Cursor.start_eq_behind, items_newline [] front back hItems hLast]
    exact mapM_id_concat_error read fault

/-- A source that ends within a comment, and one that is refused at its end. -/
theorem tokenize_across_newline_cut :
    (tokenize "* //é".toList = .ok [⟨.symbol .star, ['*'], ⟨1, 1⟩, ⟨0, 1⟩⟩, endOf "* //é".toList] ∧
      tokenize "* //é\n 0x".toList = .error ⟨⟨2, 2⟩, .invalidHexLiteral ['0', 'x']⟩) ∧
    tokenize " 0x".toList = .error ⟨⟨1, 2⟩, .invalidHexLiteral ['0', 'x']⟩ ∧
      tokenize " 0x\n* //é".toList = .error ⟨⟨1, 2⟩, .invalidHexLiteral ['0', 'x']⟩ := by
  have hRead : tokenize "* //é".toList =
      .ok [⟨.symbol .star, ['*'], ⟨1, 1⟩, ⟨0, 1⟩⟩, endOf "* //é".toList] :=
    eq_ok_of_mem_toOption (by decide +kernel)
  have hRefused : tokenize " 0x".toList = .error ⟨⟨1, 2⟩, .invalidHexLiteral ['0', 'x']⟩ := by
    rw [tokenize, itemsOf, items_eq]
    rfl
  obtain ⟨read, -, -, hBoth⟩ := (tokenize_across_newline "* //é".toList " 0x".toList).1 _ hRead
  rw [hRefused] at hBoth
  have hCause : LexicalCause.invalidHexLiteral ['0', 'x'] ≠ .unterminatedComment := by
    intro hSame
    cases hSame
  exact ⟨⟨hRead, hBoth⟩, hRefused, (tokenize_across_newline _ _).2 _ hRefused hCause⟩

end XdrBindings.Idl
