import Mathlib.Data.List.DropRight
import XdrBindings.Idl.Lexeme

/-!
# What is skipped between tokens

The reader keeps its place as it goes, one character at a time.  Here the place is computed from the
whole text in front of it, and the reader is shown to keep just this place.  What it skips from
there is cut into white space, comments and directive lines, each with the text on both sides of it:
a comment of one line and a directive end with their line, and a directive has only white space in
front of it on its line.  Conversely, whatever can be cut so is skipped as a whole.

## Main results

* `Cursor.advance_behind` — behind any text the reader keeps the place that the text has.
* `skipGap_gap` — a gap is skipped as a whole, whatever stands behind it.
* `skipped` — what is skipped is a gap, and only an open comment in front of it is an error.
-/

namespace XdrBindings.Idl

/-! ## Places -/

/-- The part of a text behind its last newline. -/
def lastLine (text : Text) : Text := text.rtakeWhile (· != '\n')

theorem lastLine_newline (text : Text) : lastLine (text ++ ['\n']) = [] :=
  List.rtakeWhile_concat_neg _ _ _ (by decide)

theorem lastLine_concat {c : Char} (h : c ≠ '\n') (text : Text) :
    lastLine (text ++ [c]) = lastLine text ++ [c] :=
  List.rtakeWhile_concat_pos _ _ _ (by simpa using h)

/-- The place behind a text: its newlines are counted for the line, and the characters behind the
last of them for the column. -/
def Position.behind (front : Text) : Position :=
  ⟨1 + front.count '\n', 1 + (lastLine front).length⟩

namespace Cursor

/-- The reader behind a text. -/
def behind (front : Text) : Cursor :=
  ⟨Position.behind front, front.byteSize, (lastLine front).all isSpace⟩

theorem start_eq_behind : start = behind [] := rfl

theorem step_behind (front : Text) (c : Char) :
    (behind front).step c = behind (front ++ [c]) := by
  by_cases hNewline : c = '\n'
  · subst hNewline
    simp [step, behind, Position.behind, lastLine_newline, List.count_append, Nat.add_assoc]
  · simp [step, behind, Position.behind, lastLine_concat hNewline, List.count_append, hNewline,
      Nat.add_assoc]

theorem advance_behind (front text : Text) :
    (behind front).advance text = behind (front ++ text) := by
  induction text generalizing front with
  | nil => rw [List.append_nil]; rfl
  | cons c rest ih =>
    show ((behind front).step c).advance rest = _
    rw [step_behind, ih, List.append_assoc]
    rfl

end Cursor

/-! ## Gaps -/

/-- Whether nothing more stands on the line. -/
def IsLineEnd (back : Text) : Prop := ∀ c ∈ back.head?, c = '\n'

/-- One thing that is skipped, with the text in front of it and behind it. -/
inductive Filler (front back : Text) : Text → Prop
  | space {c : Char} (h : isSpace c = true) : Filler front back [c]
  | lineComment {body : Text} (hBody : '\n' ∉ body) (hBack : IsLineEnd back) :
      Filler front back ('/' :: '/' :: body)
  /-- The comment ends where it is closed for the first time. -/
  | blockComment {body : Text} (hBody : ¬['*', '/'] <:+: body) :
      Filler front back ('/' :: '*' :: (body ++ ['*', '/']))
  | directive {body : Text} (hFront : (lastLine front).all isSpace = true) (hBody : '\n' ∉ body)
      (hBack : IsLineEnd back) : Filler front back ('%' :: body)

/-- A text between two others that is a sequence of things that are skipped. -/
inductive IsGap : (front gap back : Text) → Prop
  | nil {front back : Text} : IsGap front [] back
  | cons {front piece gap back : Text} (hPiece : Filler front (gap ++ back) piece)
      (hRest : IsGap (front ++ piece) gap back) : IsGap front (piece ++ gap) back

theorem Filler.isGap {front piece back : Text} (h : Filler front back piece) :
    IsGap front piece back := by
  have hGap : IsGap front (piece ++ []) back := .cons h .nil
  rwa [List.append_nil] at hGap

theorem IsGap.append {front gap next back : Text} (h : IsGap front gap (next ++ back))
    (hNext : IsGap (front ++ gap) next back) : IsGap front (gap ++ next) back := by
  generalize hBehind : next ++ back = behind at h
  induction h with
  | nil => simpa using hNext
  | cons hPiece _ ih =>
    subst hBehind
    rw [List.append_assoc]
    exact .cons (by simpa using hPiece) (ih (by simpa using hNext) rfl)

/-! ## Comments and directives -/

theorem skipGap_line_append {body : Text} (hBody : '\n' ∉ body) (cursor : Cursor) (back : Text) :
    skipGap .line cursor (body ++ back) = skipGap .line (cursor.advance body) back := by
  induction body generalizing cursor with
  | nil => rfl
  | cons c rest ih =>
    have hNewline : c ≠ '\n' := fun h => hBody (h ▸ List.mem_cons_self)
    have hRest : '\n' ∉ rest := fun h => hBody (List.mem_cons_of_mem _ h)
    rw [List.cons_append, skipGap, if_neg hNewline, ih hRest]
    rfl

/-- A line is left where nothing more stands on it. -/
theorem skipGap_line_end {back : Text} (hBack : IsLineEnd back) (cursor : Cursor) :
    skipGap .line cursor back = skipGap .space cursor back := by
  cases back with
  | nil => rfl
  | cons c rest =>
    obtain rfl := hBack c rfl
    rfl

/-- What is left of a line is skipped. -/
theorem skipGap_line (cursor : Cursor) (text : Text) :
    ∃ body back, text = body ++ back ∧ '\n' ∉ body ∧ IsLineEnd back ∧
      skipGap .line cursor text = skipGap .space (cursor.advance body) back := by
  have hBody : '\n' ∉ text.takeWhile (· != '\n') := fun hMem => by
    simpa using List.mem_takeWhile_imp hMem
  have hBack : IsLineEnd (text.dropWhile (· != '\n')) := fun c hc => by
    simpa [Option.mem_def.mp hc] using List.head?_dropWhile_not (· != '\n') text
  refine ⟨_, _, List.takeWhile_append_dropWhile.symm, hBody, hBack, ?_⟩
  rw [← skipGap_line_end hBack, ← skipGap_line_append hBody, List.takeWhile_append_dropWhile]

theorem not_closes_cons {c : Char} {text : Text} :
    ¬['*', '/'] <:+: c :: text ↔ ¬('*' = c ∧ ['/'] <+: text) ∧ ¬['*', '/'] <:+: text := by
  rw [List.infix_cons_iff, not_or, List.cons_prefix_cons]

/-- The star that the reader of a comment has just passed, if it has. -/
def heldStar (star : Bool) : Text := if star then ['*'] else []

/-- In a comment the reader looks for a star and a slash behind it.  It holds whether the character
in front is a star, so this star belongs to what is searched. -/
theorem skipGap_block (opened : Position) (star : Bool) (cursor : Cursor) (text : Text) :
    (∃ body inner rest, text = body ++ '/' :: rest ∧ heldStar star ++ body = inner ++ ['*'] ∧
      ¬['*', '/'] <:+: inner ++ ['*'] ∧
      skipGap (.block opened star) cursor text =
        skipGap .space (cursor.advance (body ++ ['/'])) rest) ∨
    (¬['*', '/'] <:+: heldStar star ++ text ∧
      skipGap (.block opened star) cursor text = .error ⟨opened, .unterminatedComment⟩) := by
  induction text generalizing star cursor with
  | nil =>
    refine .inr ⟨?_, rfl⟩
    cases star <;> decide
  | cons c rest ih =>
    by_cases hClose : star = true ∧ c = '/'
    · obtain ⟨rfl, rfl⟩ := hClose
      exact .inl ⟨[], [], rest, rfl, rfl, by decide, rfl⟩
    -- the star in front does not close the comment with this character
    have hHeld {text : Text} (h : ¬['*', '/'] <:+: c :: text) :
        ¬['*', '/'] <:+: heldStar star ++ c :: text := by
      cases star with
      | false => exact h
      | true =>
        refine not_closes_cons.mpr ⟨fun hStar => hClose ⟨rfl, ?_⟩, h⟩
        exact (List.cons_prefix_cons.mp hStar.2).1.symm
    have hStep : skipGap (.block opened star) cursor (c :: rest) =
        skipGap (.block opened (c == '*')) (cursor.step c) rest := by
      rw [skipGap, if_neg hClose]
    rw [hStep]
    rcases ih (c == '*') (cursor.step c) with
      ⟨body, inner, back, rfl, hBody, hInner, hRead⟩ | ⟨hOpen, hRead⟩
    · refine .inl ⟨c :: body, heldStar star ++ if c = '*' then inner else c :: inner, back, rfl,
        ?_, ?_, hRead⟩
      · by_cases hStar : c = '*'
        · subst hStar
          rw [if_pos rfl, List.append_assoc, ← hBody]
          rfl
        · rw [if_neg hStar, List.append_assoc, List.cons_append, ← hBody]
          simp [heldStar, hStar]
      · rw [List.append_assoc]
        by_cases hStar : c = '*'
        · subst hStar
          rw [if_pos rfl, ← hBody]
          exact hHeld (by rw [← hBody] at hInner; exact hInner)
        · rw [if_neg hStar, List.cons_append]
          exact hHeld (not_closes_cons.mpr ⟨fun h => hStar h.1.symm, hInner⟩)
    · refine .inr ⟨?_, hRead⟩
      by_cases hStar : c = '*'
      · subst hStar
        exact hHeld hOpen
      · have hRest : ¬['*', '/'] <:+: rest := by simpa [heldStar, hStar] using hOpen
        exact hHeld (not_closes_cons.mpr ⟨fun h => hStar h.1.symm, hRest⟩)

/-- A comment is left at its closing if it is not closed before.  The star that is held in front
must not close it either. -/
theorem skipGap_block_append {star : Bool} {body : Text}
    (hBody : ¬['*', '/'] <:+: heldStar star ++ body) (opened : Position) (cursor : Cursor)
    (back : Text) :
    skipGap (.block opened star) cursor (body ++ '*' :: '/' :: back) =
      skipGap .space (cursor.advance (body ++ ['*', '/'])) back := by
  induction body generalizing star cursor with
  | nil => cases star <;> rfl
  | cons c rest ih =>
    have hOpen : ¬(star = true ∧ c = '/') := by
      rintro ⟨rfl, rfl⟩
      exact hBody ⟨[], rest, rfl⟩
    have hRest : heldStar (c == '*') ++ rest <:+ heldStar star ++ c :: rest := by
      by_cases hStar : c = '*'
      · subst hStar
        exact List.suffix_append _ _
      · rw [beq_false_of_ne hStar]
        exact (List.suffix_cons c rest).trans (List.suffix_append _ _)
    rw [List.cons_append, skipGap, if_neg hOpen,
      ih (fun hClose => hBody (hClose.trans hRest.isInfix))]
    rfl

/-- What may be skipped is skipped. -/
theorem skipGap_filler {front piece back : Text} (h : Filler front back piece) :
    skipGap .space (.behind front) (piece ++ back) =
      skipGap .space (.behind (front ++ piece)) back := by
  rw [← Cursor.advance_behind]
  cases h with
  | space hSpace =>
    rw [List.singleton_append, skipGap, if_pos hSpace]
    rfl
  | lineComment hBody hBack =>
    rw [List.cons_append, List.cons_append, skipGap, if_neg (by decide), if_pos ⟨rfl, rfl⟩,
      skipGap, if_neg (by decide), skipGap_line_append hBody, skipGap_line_end hBack]
    rfl
  | @blockComment body hBody =>
    rw [List.cons_append, List.cons_append, List.append_assoc, skipGap, if_neg (by decide),
      if_neg (by simp), if_pos ⟨rfl, rfl⟩, skipGap]
    have hOpen : ¬['*', '/'] <:+: heldStar false ++ body := hBody
    exact skipGap_block_append hOpen _ _ back
  | directive hFront hBody hBack =>
    rw [List.cons_append, skipGap, if_neg (by decide), if_neg (by simp), if_neg (by simp),
      if_pos ⟨rfl, hFront⟩, skipGap_line_append hBody, skipGap_line_end hBack]
    rfl

/-- A gap is skipped as a whole, whatever stands behind it. -/
theorem skipGap_gap {front gap back : Text} (h : IsGap front gap back) :
    skipGap .space (.behind front) (gap ++ back) =
      skipGap .space (.behind (front ++ gap)) back := by
  induction h with
  | nil => rw [List.append_nil]; rfl
  | cons hPiece _ ih =>
    rw [List.append_assoc, skipGap_filler hPiece, ih, List.append_assoc]

/-! ## Skipping -/

/-- What skipping may give behind a text: the place behind a gap with the text left, or an error
where a comment is open that is never closed. -/
inductive Skipped (front : Text) : Text → Except LexicalFault (Cursor × Text) → Prop
  | reached {gap rest : Text} (hGap : IsGap front gap rest) :
      Skipped front (gap ++ rest) (.ok (.behind (front ++ gap), rest))
  | unterminated {gap opened : Text} (hGap : IsGap front gap ('/' :: '*' :: opened))
      (hOpened : ¬['*', '/'] <:+: opened) :
      Skipped front (gap ++ '/' :: '*' :: opened)
        (.error ⟨.behind (front ++ gap), .unterminatedComment⟩)

/-- Nothing is skipped where a token begins or the text ends. -/
theorem Skipped.here {front text : Text} : Skipped front text (.ok (.behind front, text)) := by
  have hReached : Skipped front ([] ++ text) (.ok (.behind (front ++ []), text)) := .reached .nil
  rwa [List.append_nil] at hReached

/-- A comment that is never closed is an error at its opening. -/
theorem Skipped.opened {front opened : Text} (hOpened : ¬['*', '/'] <:+: opened) :
    Skipped front ('/' :: '*' :: opened) (.error ⟨.behind front, .unterminatedComment⟩) := by
  have hOpen : Skipped front ([] ++ '/' :: '*' :: opened)
      (.error ⟨.behind (front ++ []), .unterminatedComment⟩) := .unterminated .nil hOpened
  rwa [List.append_nil] at hOpen

theorem Skipped.cons {front piece text : Text} {result : Except LexicalFault (Cursor × Text)}
    (hPiece : Filler front text piece) (h : Skipped (front ++ piece) text result) :
    Skipped front (piece ++ text) result := by
  cases h with
  | reached hGap =>
    rw [← List.append_assoc, List.append_assoc front]
    exact .reached (.cons hPiece hGap)
  | unterminated hGap hOpened =>
    rw [← List.append_assoc, List.append_assoc front]
    exact .unterminated (.cons hPiece hGap) hOpened

/-- What is skipped from any place in a source. -/
theorem skipped (front text : Text) : Skipped front text (skipGap .space (.behind front) text) := by
  induction hLength : text.length using Nat.strong_induction_on generalizing front text with
  | _ length ih =>
    have hNext {piece rest : Text} (hShorter : rest.length < text.length)
        (hPiece : Filler front rest piece) :
        Skipped front (piece ++ rest) (skipGap .space (.behind (front ++ piece)) rest) :=
      .cons hPiece (ih rest.length (hLength ▸ hShorter) (front ++ piece) rest rfl)
    cases text with
    | nil => exact .here
    | cons c rest =>
      rw [skipGap]
      split
      · rename_i hSpace
        rw [Cursor.step_behind]
        exact hNext (Nat.lt_succ_self _) (.space hSpace)
      split
      · rename_i hComment
        obtain ⟨rfl, hSlash⟩ := hComment
        obtain ⟨rest, rfl⟩ := List.head?_eq_some_iff.mp hSlash
        obtain ⟨body, back, rfl, hBody, hBack, hRead⟩ :=
          skipGap_line (((Cursor.behind front).step '/').step '/') rest
        rw [Cursor.step_behind, Cursor.step_behind, Cursor.advance_behind] at hRead
        rw [skipGap, if_neg (by decide), Cursor.step_behind, Cursor.step_behind, hRead]
        have hLine := hNext (by simp only [List.length_cons, List.length_append]; omega)
          (.lineComment hBody hBack)
        simpa using hLine
      split
      · rename_i hComment
        obtain ⟨rfl, hStar⟩ := hComment
        obtain ⟨opened, rfl⟩ := List.head?_eq_some_iff.mp hStar
        rw [skipGap, Cursor.step_behind, Cursor.step_behind]
        have hBlock := skipGap_block (Cursor.behind front).position false
          (.behind (front ++ ['/'] ++ ['*'])) opened
        rcases hBlock with
          ⟨body, inner, back, rfl, hBody, hInner, hRead⟩ | ⟨hOpened, hRead⟩
        · obtain rfl : body = inner ++ ['*'] := hBody
          rw [Cursor.advance_behind] at hRead
          rw [hRead]
          have hPiece : Filler front back ('/' :: '*' :: (inner ++ ['*', '/'])) :=
            .blockComment fun h => hInner (h.trans (List.prefix_append inner ['*']).isInfix)
          have hSkipped := hNext (by simp only [List.length_cons, List.length_append]; omega) hPiece
          simpa using hSkipped
        · rw [hRead]
          exact .opened hOpened
      split
      · rename_i hPercent
        obtain ⟨rfl, hBlank⟩ := hPercent
        obtain ⟨body, back, rfl, hBody, hBack, hRead⟩ :=
          skipGap_line (.behind (front ++ ['%'])) rest
        rw [Cursor.step_behind, hRead, Cursor.advance_behind]
        have hLine := hNext (by simp only [List.length_cons, List.length_append]; omega)
          (.directive hBlank hBody hBack)
        simpa using hLine
      · exact .here

end XdrBindings.Idl
