import XdrBindings.Proofs.Idl.Gaps
import XdrBindings.Proofs.Idl.Spelling

/-!
# Tokens and errors stand where they say

A source is its tokens with gaps between them.  Each token is a slice of the source, and its place
and its span are those of the text in front of it, in characters and in bytes.  The end mark stands
at the end of the source.  An error has the place of the text that it is about.

## Main results

* `items_laidOut` — reading cuts a text into gaps and tokens, up to its end or an error.
* `tokenize_places` — what reading a source says about its tokens and about its error.
-/

namespace XdrBindings.Idl

/-! ## The token at the front of a text -/

/-- What an error is about, at the front of the text that is left. -/
def LexicalCause.StandsAt : LexicalCause → Text → Prop
  | .unrecognizedCharacter found, back => back.head? = some found
  | .unterminatedComment, back =>
    ∃ opened, back = '/' :: '*' :: opened ∧ ¬['*', '/'] <:+: opened
  | .invalidHexLiteral literal, back => literal ≠ [] ∧ literal <+: back
  | .integerOutOfRange literal, back => literal ≠ [] ∧ literal <+: back

theorem literal_ofText_ne_nil {text : Text} (h : startsNumber text = true) :
    (Numeral.ofText text).literal ≠ [] := by
  unfold startsNumber at h
  split at h
  · simp [Numeral.ofText, Numeral.literal, signOf]
  · rename_i c rest hSign
    have hMark : signOf (c :: rest) = [] := by
      unfold signOf
      split
      · rename_i hMinus
        obtain ⟨rfl, rfl⟩ := List.cons.inj hMinus
        cases h
      · rfl
    simp only [Numeral.ofText, Numeral.literal, hMark, List.length_nil, List.drop_zero,
      List.nil_append]
    cases hHex : hexMarkOf (c :: rest) with
    | cons d others => simp
    | nil => simp [h]
  · cases h

theorem kind_eq_number {numeral : Numeral} {kind : TokenKind} (h : numeral.kind = .ok kind) :
    kind = .number numeral.value ∧ fitsWord numeral.value = true := by
  rw [Numeral.kind_eq] at h
  split at h
  · cases h
  · split at h <;> cases h
    exact ⟨rfl, ‹_›⟩

theorem kind_eq_error {numeral : Numeral} {cause : LexicalCause} (h : numeral.kind = .error cause) :
    cause = .invalidHexLiteral numeral.literal ∨ cause = .integerOutOfRange numeral.literal := by
  rw [Numeral.kind_eq] at h
  split at h
  · cases h
    exact .inl rfl
  · split at h <;> cases h
    exact .inr rfl

/-- A token begins with the first character and is not the end mark. -/
theorem exists_of_lexemeAt {c : Char} {rest lexeme : Text} {kind : TokenKind}
    (h : lexemeAt c rest = .ok (kind, lexeme)) :
    kind ≠ .finish ∧ ∃ tail back, lexeme = c :: tail ∧ rest = tail ++ back := by
  have hFirst : kind ≠ .finish ∧ lexeme ≠ [] := by
    unfold lexemeAt at h
    split at h
    · cases h
      refine ⟨?_, List.cons_ne_nil _ _⟩
      unfold wordKind
      split <;> nofun
    split at h
    · rename_i hStarts
      cases hKind : (Numeral.ofText (c :: rest)).kind with
      | error cause => simp [hKind, Except.map] at h
      | ok found =>
        simp only [hKind, Except.map, Except.ok.injEq, Prod.mk.injEq] at h
        obtain ⟨rfl, rfl⟩ := h
        rw [(kind_eq_number hKind).1]
        exact ⟨nofun, literal_ofText_ne_nil hStarts⟩
    · split at h <;> cases h
      exact ⟨nofun, List.cons_ne_nil _ _⟩
  obtain ⟨d, tail, rfl⟩ := List.exists_cons_of_ne_nil hFirst.2
  obtain ⟨rfl, back, hBack⟩ := List.cons_prefix_cons.mp (lexemeAt_begins h)
  exact ⟨hFirst.1, tail, back, rfl, hBack.symm⟩

theorem standsAt_of_lexemeAt {c : Char} {rest : Text} {cause : LexicalCause}
    (h : lexemeAt c rest = .error cause) : cause.StandsAt (c :: rest) := by
  unfold lexemeAt at h
  split at h
  · cases h
  split at h
  · rename_i hStarts
    have hLiteral := literal_ofText_ne_nil hStarts
    have hBegins := literal_ofText_begins (c :: rest)
    cases hKind : (Numeral.ofText (c :: rest)).kind with
    | ok found => simp [hKind, Except.map] at h
    | error other =>
      obtain rfl : other = cause := by simpa [hKind, Except.map] using h
      rcases kind_eq_error hKind with rfl | rfl
      · exact ⟨hLiteral, hBegins⟩
      · exact ⟨hLiteral, hBegins⟩
  · split at h <;> cases h
    rfl

/-- What is read of a text is what stands somewhere in it. -/
theorem exists_lexemeAt_of_mem_items (cursor : Cursor) (text : Text) {token : Token}
    (h : .ok token ∈ items cursor text) (hKind : token.kind ≠ .finish) :
    ∃ c rest, lexemeAt c rest = .ok (token.kind, token.text) := by
  -- what comes next: an open comment, the end of the text, no token, or a token
  fun_induction items cursor text with
  | case1 => cases List.mem_singleton.mp h
  | case2 cursor text place =>
    obtain rfl := Except.ok.inj (List.mem_singleton.mp h)
    exact absurd rfl hKind
  | case3 => cases List.mem_singleton.mp h
  | case4 cursor text place c rest hSkip kind lexeme hLexeme after ih =>
    rcases List.mem_cons.mp h with hFirst | hOthers
    · obtain rfl := Except.ok.inj hFirst
      exact ⟨c, rest, hLexeme⟩
    · exact ih hOthers

theorem exists_lexemeAt_of_mem_tokenize {source : Text} {tokens : List Token} {token : Token}
    (h : tokenize source = .ok tokens) (hToken : token ∈ tokens) (hKind : token.kind ≠ .finish) :
    ∃ c rest, lexemeAt c rest = .ok (token.kind, token.text) := by
  have hItems : itemsOf source = tokens.map .ok := mapM_id_eq_ok_iff.mp h
  have hMem : .ok token ∈ itemsOf source := by
    rw [hItems]
    exact List.mem_map_of_mem hToken
  exact exists_lexemeAt_of_mem_items .start source hMem hKind

/-! ## Tokens behind a text -/

/-- The token that a text spells behind another one. -/
def tokenBehind (front : Text) (kind : TokenKind) (text : Text) : Token :=
  ⟨kind, text, .behind front, ⟨front.byteSize, (front ++ text).byteSize⟩⟩

/-- `LaidOut front tokens read back` says that the text `read` between two others is the tokens,
each behind a gap. -/
inductive LaidOut : (front : Text) → List Token → (read back : Text) → Prop
  | nil {front back : Text} : LaidOut front [] [] back
  | cons {front gap text read back : Text} {kind : TokenKind} {tokens : List Token}
      (hGap : IsGap front gap (text ++ (read ++ back))) (hKind : kind ≠ .finish)
      (hText : text ≠ []) (hRest : LaidOut (front ++ gap ++ text) tokens read back) :
      LaidOut front (tokenBehind (front ++ gap) kind text :: tokens) (gap ++ (text ++ read)) back

/-- How reading ends behind the last token: with the end mark at the end of the source, or with an
error, in either case behind a gap. -/
inductive Ends (front : Text) : Except LexicalFault Token → (back : Text) → Prop
  | finish {gap : Text} (hGap : IsGap front gap []) :
      Ends front (.ok (tokenBehind (front ++ gap) .finish [])) gap
  | fault {gap back : Text} {cause : LexicalCause} (hGap : IsGap front gap back)
      (hCause : cause.StandsAt back) :
      Ends front (.error ⟨.behind (front ++ gap), cause⟩) (gap ++ back)

/-- Reading from any place cuts what is left into gaps and tokens, up to its end or an error. -/
theorem items_laidOut (front text : Text) :
    ∃ tokens read back last, text = read ++ back ∧
      items (.behind front) text = tokens.map .ok ++ [last] ∧
      LaidOut front tokens read back ∧ Ends (front ++ read) last back := by
  induction hLength : text.length using Nat.strong_induction_on generalizing front text with
  | _ length ih =>
    have hSkipped := skipped front text
    rw [items_eq]
    generalize skipGap .space (.behind front) text = result at hSkipped
    cases hSkipped with
    | unterminated hGap hOpened =>
      refine ⟨[], [], _, _, rfl, rfl, .nil, ?_⟩
      rw [List.append_nil]
      exact .fault hGap ⟨_, rfl, hOpened⟩
    | @reached gap rest hGap =>
      cases rest with
      | nil =>
        refine ⟨[], [], gap, _, by simp, rfl, .nil, ?_⟩
        have hFinish := Ends.finish hGap
        simp only [tokenBehind, List.append_nil] at hFinish ⊢
        exact hFinish
      | cons c rest =>
        dsimp only
        cases hLexeme : lexemeAt c rest with
        | error cause =>
          refine ⟨[], [], _, _, rfl, rfl, .nil, ?_⟩
          rw [List.append_nil]
          exact .fault hGap (standsAt_of_lexemeAt hLexeme)
        | ok found =>
          obtain ⟨kind, lexeme⟩ := found
          obtain ⟨hKind, tail, after, rfl, rfl⟩ := exists_of_lexemeAt hLexeme
          dsimp only
          rw [Cursor.advance_behind, List.tail_cons, List.drop_left]
          have hShorter : after.length < length := by
            simp only [← hLength, List.length_append, List.length_cons]
            omega
          obtain ⟨tokens, read, back, last, rfl, hItems, hTokens, hEnds⟩ :=
            ih after.length hShorter (front ++ gap ++ c :: tail) after rfl
          refine ⟨tokenBehind (front ++ gap) kind (c :: tail) :: tokens, gap ++ (c :: tail ++ read),
            back, last, by simp, ?_, ?_, ?_⟩
          · rw [hItems]
            rfl
          · exact .cons (by simpa using hGap) hKind (List.cons_ne_nil _ _) hTokens
          · simpa using hEnds

/-! ## Tokens of a source -/

/-- Where the last of the tokens ends, or `start` if there is none. -/
def stopOf (start : Nat) : List Token → Nat
  | [] => start
  | token :: rest => stopOf token.span.stop rest

/-- The token is a slice of the source behind a gap that begins at a byte, and its span and its
place are those of the slice. -/
def Token.StandsIn (source : Text) (start : Nat) (token : Token) : Prop :=
  ∃ front gap back, source = front ++ (gap ++ (token.text ++ back)) ∧ front.byteSize = start ∧
    IsGap front gap (token.text ++ back) ∧ token = tokenBehind (front ++ gap) token.kind token.text

/-- The error is about what stands in the source behind a gap that begins at a byte, and it has the
place of this. -/
def LexicalFault.StandsIn (source : Text) (start : Nat) (fault : LexicalFault) : Prop :=
  ∃ front gap back, source = front ++ (gap ++ back) ∧ front.byteSize = start ∧
    IsGap front gap back ∧ fault.position = .behind (front ++ gap) ∧ fault.cause.StandsAt back

section

variable {front read back : Text} {tokens : List Token}

theorem LaidOut.stopOf_eq (h : LaidOut front tokens read back) :
    stopOf front.byteSize tokens = (front ++ read).byteSize := by
  induction h with
  | nil => simp [stopOf]
  | cons _ _ _ _ ih => simpa [stopOf, tokenBehind, Nat.add_assoc] using ih

/-- Tokens stand between the texts on both sides, and none is empty. -/
theorem LaidOut.span_le (h : LaidOut front tokens read back) :
    ∀ token ∈ tokens, token.kind ≠ .finish ∧ front.byteSize ≤ token.span.start ∧
      token.span.start < token.span.stop ∧ token.span.stop ≤ (front ++ read).byteSize := by
  induction h with
  | nil => simp
  | @cons front gap text read back kind tokens hGap hKind hText hRest ih =>
    have hWidth : 0 < text.byteSize := by
      obtain ⟨c, rest, rfl⟩ := List.exists_cons_of_ne_nil hText
      have hChar := c.utf8Size_pos
      rw [Text.byteSize_cons]
      omega
    intro token hToken
    rcases List.mem_cons.mp hToken with rfl | hMem
    · refine ⟨hKind, ?_⟩
      simp only [tokenBehind, Text.byteSize_append]
      omega
    · obtain ⟨hFinish, hStart, hLt, hStop⟩ := ih token hMem
      refine ⟨hFinish, ?_, hLt, ?_⟩
      · simp only [Text.byteSize_append] at hStart
        omega
      · simpa using hStop

/-- No two tokens overlap. -/
theorem LaidOut.pairwise (h : LaidOut front tokens read back) :
    tokens.Pairwise fun token next => token.span.stop ≤ next.span.start := by
  induction h with
  | nil => exact .nil
  | cons _ _ _ hRest ih => exact .cons (fun next hNext => (hRest.span_le next hNext).2.1) ih

theorem LaidOut.standsIn (h : LaidOut front tokens read back) :
    ∀ before token after, tokens = before ++ token :: after →
      token.StandsIn (front ++ (read ++ back)) (stopOf front.byteSize before) := by
  induction h with
  | nil => simp
  | @cons front gap text read back kind tokens hGap hKind hText hRest ih =>
    intro before token after hSplit
    cases before with
    | nil =>
      obtain ⟨rfl, -⟩ := List.cons.inj hSplit
      exact ⟨front, gap, read ++ back, by simp [tokenBehind], rfl, hGap, rfl⟩
    | cons first before =>
      obtain ⟨rfl, hRest⟩ := List.cons.inj hSplit
      simpa [stopOf, tokenBehind] using ih before token after hRest

end

/-- The end mark of a source. -/
def endOf (source : Text) : Token := tokenBehind source .finish []

/-- Only the last of the tokens of a source is an end mark. -/
theorem exists_of_tokenize {source : Text} {tokens : List Token}
    (h : tokenize source = .ok tokens) :
    ∃ read, tokens = read ++ [endOf source] ∧ ∀ token ∈ read, token.kind ≠ .finish := by
  obtain ⟨tokens, read, back, last, rfl, hItems, hTokens, hEnds⟩ := items_laidOut [] source
  rw [tokenize, itemsOf, Cursor.start_eq_behind, hItems] at h
  cases hEnds with
  | fault => rw [mapM_id_concat_error] at h; cases h
  | finish hGap =>
    rw [← List.map_singleton, ← List.map_append, mapM_id_map_ok] at h
    cases h
    exact ⟨tokens, rfl, fun token hToken => (hTokens.span_le token hToken).1⟩

/-- An error is the last item of a source, behind tokens. -/
theorem exists_of_tokenize_eq_error {source : Text} {fault : LexicalFault}
    (h : tokenize source = .error fault) :
    ∃ read : List Token, itemsOf source = read.map .ok ++ [.error fault] := by
  obtain ⟨tokens, read, back, last, rfl, hItems, hTokens, hEnds⟩ := items_laidOut [] source
  rw [tokenize, itemsOf, Cursor.start_eq_behind, hItems] at h
  cases hEnds with
  | fault =>
    rw [mapM_id_concat_error] at h
    obtain rfl := Except.error.inj h
    exact ⟨tokens, hItems⟩
  | finish =>
    rw [← List.map_singleton, ← List.map_append, mapM_id_map_ok] at h
    cases h

/-- Reading a source gives its tokens in order, each behind a gap and with its own slice of the
source, and the end mark at the end.  Where it gives an error, the tokens in front of this are the
same, and the error stands behind a gap as they do. -/
theorem tokenize_places (source : Text) :
    match tokenize source with
    | .ok tokens => ∃ read, tokens = read ++ [endOf source] ∧
        (∀ token ∈ read, token.kind ≠ .finish ∧ token.span.start < token.span.stop) ∧
        tokens.Pairwise (fun token next => token.span.stop ≤ next.span.start) ∧
        ∀ before token after, tokens = before ++ token :: after →
          token.StandsIn source (stopOf 0 before)
    | .error fault => ∃ read, itemsOf source = read.map .ok ++ [.error fault] ∧
        (∀ before token after, read = before ++ token :: after →
          token.StandsIn source (stopOf 0 before)) ∧
        fault.StandsIn source (stopOf 0 read) := by
  obtain ⟨tokens, read, back, last, rfl, hItems, hTokens, hEnds⟩ := items_laidOut [] source
  have hStop : stopOf 0 tokens = read.byteSize := hTokens.stopOf_eq
  rw [tokenize, itemsOf, Cursor.start_eq_behind, hItems]
  cases hEnds with
  | fault hGap hCause =>
    rw [mapM_id_concat_error]
    refine ⟨tokens, rfl, hTokens.standsIn, read, _, _, rfl, hStop.symm, hGap, rfl, hCause⟩
  | finish hGap =>
    rw [← List.map_singleton, ← List.map_append, mapM_id_map_ok]
    refine ⟨tokens, rfl, fun token hToken => ?_, ?_, ?_⟩
    · obtain ⟨hKind, -, hLt, -⟩ := hTokens.span_le token hToken
      exact ⟨hKind, hLt⟩
    · refine List.pairwise_append.mpr ⟨hTokens.pairwise, List.pairwise_singleton _ _, ?_⟩
      intro token hToken next hNext
      obtain rfl := List.mem_singleton.mp hNext
      obtain ⟨-, -, -, hStop⟩ := hTokens.span_le token hToken
      simp only [tokenBehind, Text.byteSize_append] at hStop ⊢
      omega
    · intro before token after hSplit
      rcases after.eq_nil_or_concat with rfl | ⟨others, next, rfl⟩
      · -- the end mark itself
        obtain ⟨rfl, hLast⟩ := List.append_inj' hSplit rfl
        obtain rfl := (List.cons.inj hLast).1
        exact ⟨read, _, [], by simp [tokenBehind], hStop.symm, hGap, rfl⟩
      · rw [List.concat_eq_append, ← List.cons_append, ← List.append_assoc] at hSplit
        exact hTokens.standsIn before token others (List.append_inj' hSplit rfl).1

end XdrBindings.Idl
