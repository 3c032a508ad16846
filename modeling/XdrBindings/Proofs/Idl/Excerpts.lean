import XdrBindings.Idl.Excerpt
import XdrBindings.Proofs.Idl.Places
import XdrBindings.Proofs.Idl.Rendering
import XdrBindings.Proofs.Text.Lines

/-!
# Excerpts point at their tokens

The reader of tokens keeps count of lines and columns while it goes over a source.  An excerpt knows
nothing of that: it cuts the source into lines anew, without the characters that end them, and takes
the counts for an index and for a width.  The two agree on every token: the line that is quoted is
the one that the token stands in, and the carets stand under its characters.

A line ends with a newline or with a carriage return and a newline, and the last one with the
source.  A carriage return that no newline follows ends no line.

## Main results

* `isSpace_of_lexemeAt` — no token holds white space.
* `exists_isOn` — every token is on the line that it gives, at its column.
* `Excerpt.pieces_render` — an excerpt quotes the lines up to a token and points below the last.
* `exists_quotes` — the excerpt of any token of any source.
-/

namespace XdrBindings.Idl

/-! ## The characters of tokens -/

theorem isSpace_of_isWordChar {c : Char} (h : isWordChar c = true) : isSpace c = false :=
  (begins_of_isWordChar h).1

/-- A number is written without white space. -/
theorem isSpace_of_mem_literal (text : Text) :
    ∀ c ∈ (Numeral.ofText text).literal, isSpace c = false := by
  have hSign : ∀ c ∈ signOf text, isSpace c = false := by
    unfold signOf
    split <;> decide
  have hMark : ∀ c ∈ hexMarkOf (text.drop (signOf text).length), isSpace c = false := by
    unfold hexMarkOf
    split <;> decide
  have hDigits (digits : Text) (mark : Bool) :
      ∀ c ∈ digits.takeWhile (if mark then Char.isDigit else isHexDigit), isSpace c = false := by
    intro c hc
    have hDigit := List.mem_takeWhile_imp hc
    cases mark with
    | true => exact isSpace_of_isWordChar (isWordChar_of_isDigit hDigit)
    | false => exact isSpace_of_isWordChar (isWordChar_of_isHexDigit hDigit)
  intro c hc
  simp only [Numeral.literal, Numeral.ofText, List.mem_append] at hc
  rcases hc with (hc | hc) | hc
  · exact hSign c hc
  · exact hMark c hc
  · exact hDigits _ _ c hc

/-- A token is spelled without white space. -/
theorem isSpace_of_lexemeAt {c : Char} {rest lexeme : Text} {kind : TokenKind}
    (h : lexemeAt c rest = .ok (kind, lexeme)) : ∀ d ∈ lexeme, isSpace d = false := by
  unfold lexemeAt at h
  split at h
  · rename_i hFirst
    cases h
    refine List.forall_mem_cons.mpr ⟨isSpace_of_isWordChar (isWordChar_of_begins hFirst), ?_⟩
    exact fun d hd => isSpace_of_isWordChar (List.mem_takeWhile_imp hd)
  split at h
  · cases hKind : (Numeral.ofText (c :: rest)).kind with
    | error cause => simp [hKind, Except.map] at h
    | ok found =>
      simp only [hKind, Except.map, Except.ok.injEq, Prod.mk.injEq] at h
      rw [← h.2]
      exact isSpace_of_mem_literal (c :: rest)
  · split at h <;> cases h
    rename_i mark hMark
    rw [← Symbol.char_of_ofChar? hMark]
    exact List.forall_mem_singleton.mpr (by cases mark <;> decide)

variable {source : Text} {tokens : List Token} {token : Token}

/-- A token of a source has characters, and none of them is white space. -/
theorem text_of_mem_tokenize (h : tokenize source = .ok tokens) (hToken : token ∈ tokens)
    (hKind : token.kind ≠ .finish) :
    token.text ≠ [] ∧ ∀ c ∈ token.text, isSpace c = false := by
  obtain ⟨c, rest, hLexeme⟩ := exists_lexemeAt_of_mem_tokenize h hToken hKind
  obtain ⟨-, tail, -, hText, -⟩ := exists_of_lexemeAt hLexeme
  refine ⟨?_, isSpace_of_lexemeAt hLexeme⟩
  rw [hText]
  exact List.cons_ne_nil _ _

/-! ## The place of a token -/

/-- A text as whole lines and the part behind its last newline. -/
theorem exists_lastLine (front : Text) :
    ∃ whole, front = whole ++ lastLine front ∧ whole.EndsLine ∧ '\n' ∉ lastLine front := by
  refine ⟨front.rdropWhile (· != '\n'), List.rdropWhile_append_rtakeWhile.symm, ?_, ?_⟩
  · intro c hc
    obtain ⟨hSome, rfl⟩ := List.mem_getLast?_eq_getLast hc
    simpa using List.rdropWhile_last_not (· != '\n') front hSome
  · intro hMem
    simpa using List.mem_rtakeWhile_imp hMem

/-- A token of a source stands behind the text that its place and its span give. -/
theorem exists_front (h : tokenize source = .ok tokens) (hToken : token ∈ tokens) :
    ∃ front back, source = front ++ (token.text ++ back) ∧ token.position = .behind front ∧
      token.span.start = front.byteSize := by
  have hPlaces := tokenize_places source
  rw [h] at hPlaces
  obtain ⟨_, -, -, -, hStands⟩ := hPlaces
  obtain ⟨earlier, later, hSplit⟩ := List.append_of_mem hToken
  obtain ⟨start, gap, back, hSource, -, -, hEq⟩ := hStands earlier token later hSplit
  exact ⟨start ++ gap, back, by rw [hSource, List.append_assoc], congrArg Token.position hEq,
    congrArg (fun token : Token => token.span.start) hEq⟩

/-- Whether a line of a source, without its ending, holds a token at the column that the token
gives. -/
def Token.IsOn (source : Text) (token : Token) (line : Text) : Prop :=
  ∃ whole behind, source = whole ++ (line ++ behind) ∧ whole.EndsLine ∧ '\n' ∉ line ∧
    Text.LineEnding line behind ∧
    (whole ++ line.take (token.position.column - 1)).byteSize = token.span.start ∧
    (line.drop (token.position.column - 1)).take token.text.length = token.text

/-- Every token of a source is on a line, and there are as many lines in front of this one as the
token says. -/
theorem exists_isOn (h : tokenize source = .ok tokens) (hToken : token ∈ tokens)
    (hKind : token.kind ≠ .finish) :
    ∃ before line after, token.IsOn source line ∧ source.lines = before ++ line :: after ∧
      before.length + 1 = token.position.line := by
  obtain ⟨front, back, hSource, hPosition, hStart⟩ := exists_front h hToken
  obtain ⟨whole, hFront, hWhole, hLeft⟩ := exists_lastLine front
  have hCount : front.count '\n' = whole.count '\n' := by
    rw [hFront, List.count_append, List.count_eq_zero.mpr hLeft, Nat.add_zero]
  have hColumn : token.position.column - 1 = (lastLine front).length := by
    rw [hPosition, Position.behind, Nat.add_sub_cancel_left]
  generalize lastLine front = left at hFront hLeft hColumn
  -- the token begins in a line and ends within it
  obtain ⟨hText, hSpace⟩ := text_of_mem_tokenize h hToken hKind
  have hBegin : '\n' ∉ left ++ token.text := by
    rw [List.mem_append, not_or]
    exact ⟨hLeft, fun hMem => absurd (hSpace _ hMem) (by decide)⟩
  have hLast : (left ++ token.text).getLast? ≠ some '\r' := by
    intro hReturn
    rw [List.getLast?_append_of_ne_nil _ hText] at hReturn
    exact absurd (hSpace _ (List.mem_of_getLast? hReturn)) (by decide)
  obtain ⟨line, behind, hAhead, ⟨more, rfl⟩, hLine, hEnding⟩ :=
    Text.exists_lineEnding hBegin hLast back
  have hCut : source = whole ++ (left ++ token.text ++ more ++ behind) := by
    rw [hSource, hFront, ← hAhead]
    simp only [List.append_assoc]
  have hSome : left ++ token.text ++ more ≠ [] := by simp [hText]
  obtain ⟨after, hAfter⟩ := Text.exists_lines_of_lineEnding hLine hSome hEnding
  refine ⟨whole.lines, _, after, ⟨whole, behind, hCut, hWhole, hLine, hEnding, ?_, ?_⟩, ?_, ?_⟩
  · rw [hColumn, List.append_assoc, List.take_left, ← hFront, hStart]
  · rw [hColumn, List.append_assoc, List.drop_left, List.take_left]
  · rw [hCut, Text.lines_append hWhole, hAfter]
  · rw [Text.length_lines_of_endsLine hWhole, hPosition, Position.behind, hCount, Nat.add_comm]

/-! ## The excerpt -/

namespace Excerpt

theorem toList_pushn (s : String) (c : Char) (count : Nat) :
    (s.pushn c count).toList = s.toList ++ List.replicate count c := by
  induction count with
  | zero => simp [String.pushn, Nat.repeat]
  | succ count ih =>
    have hPush : s.pushn c (count + 1) = (s.pushn c count).push c := rfl
    rw [hPush, String.toList_push, ih, List.append_assoc, List.replicate_succ']

/-- The row under the quoted lines: carets under a token, and blanks in front of them. -/
def caretRow (token : Token) : Text :=
  List.replicate (token.position.column - 1) ' ' ++ List.replicate token.text.length '^'

theorem newline_not_mem_caretRow (token : Token) : '\n' ∉ caretRow token := by
  simp [caretRow, List.mem_replicate]

variable {before after : List Text} {line : Text}

theorem shown_append :
    shown (before ++ line :: after) before.length =
      before.drop (before.length - leading) ++ [line] := by
  have hTake : (before ++ line :: after).take (before.length + 1) = before ++ [line] := by
    simp [List.take_append]
  rw [shown, hTake, List.drop_append_of_le_length (Nat.sub_le _ _)]

/-- An excerpt quotes the line of a token behind no more than three others, and the carets stand in
the row below. -/
theorem pieces_render (hText : token.text ≠ []) (hLines : source.lines = before ++ line :: after)
    (hLine : before.length + 1 = token.position.line) :
    Text.pieces (render .plain source token.text token.position).toList =
      before.drop (before.length - leading) ++ [line, caretRow token] := by
  have hSome : (source.lines.isEmpty || token.position.line == 0) = false := by
    simp [hLines, ← hLine]
  have hIndex : min (token.position.line - 1) (source.lines.length - 1) = before.length := by
    rw [hLines, List.length_append, List.length_cons]
    omega
  have hWidth : max 1 token.text.length = token.text.length := by
    have hPositive := List.length_pos_iff.mpr hText
    omega
  have hCarets : (carets token.text).toList = List.replicate token.text.length '^' := by
    rw [carets, toList_pushn, hWidth]
    rfl
  have hShown : shown source.lines before.length =
      before.drop (before.length - leading) ++ [line] := by
    rw [hLines, shown_append]
  have hRendered : (render .plain source token.text token.position).toList =
      Text.ofPieces (before.drop (before.length - leading) ++ [line]) ++
        '\n' :: caretRow token := by
    rw [render]
    dsimp only
    rw [if_neg (by rw [hSome]; decide), hIndex, hShown]
    simp [Ink.red, toList_pushn, hCarets, caretRow, Text.ofPieces]
  have hQuoted : ∀ quoted ∈ before.drop (before.length - leading) ++ [line], '\n' ∉ quoted := by
    intro quoted hMem
    have hSource : quoted ∈ source.lines := by
      rw [hLines]
      rcases List.mem_append.mp hMem with hAbove | hHere
      · exact List.mem_append_left _ (List.mem_of_mem_drop hAbove)
      · rw [List.mem_singleton.mp hHere]
        simp
    exact Text.newline_not_mem_of_mem_lines hSource
  rw [hRendered, Text.pieces_newline, Text.pieces_ofPieces hQuoted (by simp),
    Text.pieces_of_not_mem (newline_not_mem_caretRow token), List.append_assoc]
  rfl

/-- What an excerpt with no colour shows of a token: the line that the token is on and the lines
directly above it, no more than three, and a row of carets. -/
structure Quotes (source : Text) (token : Token) (above : List Text) (line : Text) : Prop where
  /-- The rows of the excerpt. -/
  rendered : Text.pieces (render .plain source token.text token.position).toList =
    above ++ [line, caretRow token]
  /-- The token gives a line and a column. -/
  counted : 1 ≤ token.position.line ∧ 1 ≤ token.position.column
  /-- The line of the source that the token gives is quoted. -/
  line_eq : source.lines[token.position.line - 1]? = some line
  /-- This line holds the token, and the carets stand under the characters of the token. -/
  isOn : token.IsOn source line
  /-- The lines above are those that end where the line begins. -/
  above_eq : above <:+ source.lines.take (token.position.line - 1)
  length_above : above.length = min leading (token.position.line - 1)

end Excerpt

/-- The excerpt for any token of a source but the end mark points at the token.  The line that it
quotes is shown without what ends it: a newline, and a carriage return if that is directly in front
of the newline. -/
theorem exists_quotes (h : tokenize source = .ok tokens) (hToken : token ∈ tokens)
    (hKind : token.kind ≠ .finish) : ∃ above line, Excerpt.Quotes source token above line := by
  obtain ⟨before, line, after, hOn, hLines, hLine⟩ := exists_isOn h hToken hKind
  have hText := (text_of_mem_tokenize h hToken hKind).1
  have hIndex : token.position.line - 1 = before.length := by omega
  refine ⟨before.drop (before.length - Excerpt.leading), line,
    Excerpt.pieces_render hText hLines hLine, ⟨by omega, ?_⟩, ?_, hOn, ?_, ?_⟩
  · obtain ⟨front, -, -, hPosition, -⟩ := exists_front h hToken
    rw [hPosition]
    exact Nat.le_add_right 1 _
  · rw [hLines, hIndex]
    simp
  · rw [hLines, hIndex, List.take_left]
    exact List.drop_suffix _ _
  · rw [hIndex, List.length_drop]
    omega

/-- A comment of several bytes, and carriage returns in front of newlines. -/
theorem exists_quotes_behind_comment :
    let source : Text := "x\r\n/* é */ ab;\r\n".toList
    let token : Token := ⟨.identifier "ab", ['a', 'b'], ⟨2, 9⟩, ⟨12, 14⟩⟩
    token ∈ (tokenize source).toOption.getD [] ∧
      ∃ above line, Excerpt.Quotes source token above line := by
  intro source token
  have hTokens : (tokenize source).toOption =
      some [⟨.identifier "x", ['x'], ⟨1, 1⟩, ⟨0, 1⟩⟩, token,
        ⟨.symbol .semicolon, [';'], ⟨2, 11⟩, ⟨14, 15⟩⟩, ⟨.finish, [], ⟨3, 1⟩, ⟨17, 17⟩⟩] := by
    decide +kernel
  refine ⟨by rw [hTokens]; simp, ?_⟩
  exact exists_quotes (eq_ok_of_mem_toOption hTokens) (by simp) (by decide)

/-- A carriage return at the very end of a source ends no line, so that the quoted line still has
it. -/
theorem excerpt_shows_last_return :
    let source : Text := ['a', '\r']
    let token : Token := ⟨.identifier "a", ['a'], ⟨1, 1⟩, ⟨0, 1⟩⟩
    tokenize source = .ok [token, ⟨.finish, [], ⟨1, 3⟩, ⟨2, 2⟩⟩] ∧ token.kind ≠ .finish ∧
      Excerpt.render .plain source token.text token.position = "a\r\n^" ∧
      ¬∃ above line carets,
        Text.pieces (Excerpt.render .plain source token.text token.position).toList =
          above ++ [line, carets] ∧ line.getLast? ≠ some '\r' := by
  intro source token
  have hTokens : (tokenize source).toOption = some [token, ⟨.finish, [], ⟨1, 3⟩, ⟨2, 2⟩⟩] := by
    decide +kernel
  have hRendered : Excerpt.render .plain source token.text token.position = "a\r\n^" := by
    decide +kernel
  refine ⟨eq_ok_of_mem_toOption hTokens, by decide, hRendered, ?_⟩
  rintro ⟨above, line, carets, hPieces, hLine⟩
  have hRows : Text.pieces "a\r\n^".toList = [] ++ [['a', '\r'], ['^']] := by decide +kernel
  rw [hRendered, hRows] at hPieces
  obtain ⟨-, hLast⟩ := List.append_inj' hPieces rfl
  obtain ⟨rfl, -⟩ := List.cons.inj hLast
  exact hLine rfl

end XdrBindings.Idl
