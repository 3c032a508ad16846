import XdrBindings.Text.Lines

/-!
# Lines of texts put together

A text that is empty or ends with a newline can be followed by any other text without a
change to the lines of either.  So a block of whole lines keeps its lines wherever it
stands, and the lines in front of it and behind it stay apart from it.

## Main results

* `chunks_append`, `lines_append` — the lines of two texts.
* `endsLine_of_chunks_eq` — all lines but the last end with a newline.
* `pieces_append`, `ofPieces_append` — the same for the pieces between newlines.
* `ofPieces_pieces` — the pieces of a text put together again.
* `exists_lines_of_lineEnding` — the first line of a text, in front of its ending.
* `exists_lineEnding` — what begins a line lies within it, if no ending is near.
-/

namespace XdrBindings.Text

/-! ## Whole lines -/

/-- Whether a text is empty or ends with a newline. -/
def EndsLine (text : Text) : Prop := ∀ c ∈ text.getLast?, c = '\n'

theorem endsLine_nil : EndsLine [] := by
  intro c hc
  cases hc

theorem endsLine_concat (front : Text) : EndsLine (front ++ ['\n']) := by
  intro c hc
  rw [List.getLast?_concat] at hc
  exact (Option.some.inj hc).symm

theorem EndsLine.of_cons {c : Char} {rest : Text} (h : EndsLine (c :: rest)) : EndsLine rest := by
  intro d hd
  apply h d
  rw [List.getLast?_cons, Option.mem_def.mp hd]
  rfl

theorem EndsLine.append {front back : Text} (hFront : EndsLine front) (hBack : EndsLine back) :
    EndsLine (front ++ back) := by
  intro c hc
  rw [List.getLast?_append] at hc
  cases hLast : back.getLast? with
  | none =>
    rw [hLast] at hc
    exact hFront c hc
  | some last =>
    rw [hLast] at hc
    obtain rfl : last = c := Option.some.inj hc
    exact hBack last hLast

theorem EndsLine.of_append {front back : Text} (h : EndsLine (front ++ back)) :
    EndsLine back := by
  intro c hc
  apply h c
  rw [List.getLast?_append, Option.mem_def.mp hc]
  rfl

theorem endsLine_flatMap {α : Type} {write : α → Text} {parts : List α}
    (h : ∀ part ∈ parts, EndsLine (write part)) : EndsLine (parts.flatMap write) := by
  induction parts with
  | nil => exact endsLine_nil
  | cons part rest ih =>
    rw [List.flatMap_cons]
    apply (h part List.mem_cons_self).append
    apply ih
    intro other hMem
    exact h other (List.mem_cons_of_mem _ hMem)

/-- A text that is not empty and ends a line has its newline at the end. -/
theorem EndsLine.exists_concat {text : Text} (h : EndsLine text) (hText : text ≠ []) :
    ∃ front, text = front ++ ['\n'] := by
  rcases List.eq_nil_or_concat text with hNil | ⟨front, last, hConcat⟩
  · exact absurd hNil hText
  · rw [List.concat_eq_append] at hConcat
    have hLast : last = '\n' := by
      apply h last
      rw [hConcat, List.getLast?_concat]
      rfl
    exact ⟨front, by rw [hConcat, hLast]⟩

/-! ## Chunks -/

theorem chunks_eq_nil_iff {text : Text} : chunks text = [] ↔ text = [] := by
  constructor
  · intro h
    have hFlatten := chunks_flatten text
    rw [h] at hFlatten
    exact hFlatten.symm
  · rintro rfl
    rfl

theorem chunks_append {front back : Text} (h : EndsLine front) :
    chunks (front ++ back) = chunks front ++ chunks back := by
  induction front with
  | nil => rfl
  | cons c rest ih =>
    have ihRest := ih h.of_cons
    by_cases hc : c = '\n'
    · show chunks (c :: (rest ++ back)) = chunks (c :: rest) ++ chunks back
      rw [chunks, chunks, if_pos hc, if_pos hc, ihRest, List.cons_append]
    · show chunks (c :: (rest ++ back)) = chunks (c :: rest) ++ chunks back
      rw [chunks, chunks, if_neg hc, if_neg hc, ihRest]
      cases hChunks : chunks rest with
      | nil =>
        -- a last line without a newline
        have hEmpty := chunks_eq_nil_iff.mp hChunks
        rw [hEmpty] at h
        exact absurd (h c rfl) hc
      | cons line others => rfl

theorem chunks_line {line : Text} (h : '\n' ∉ line) :
    chunks (line ++ ['\n']) = [line ++ ['\n']] := by
  induction line with
  | nil => rfl
  | cons c rest ih =>
    have hc : c ≠ '\n' := by
      rintro rfl
      exact h List.mem_cons_self
    have hRest := ih fun hMem => h (List.mem_cons_of_mem _ hMem)
    show chunks (c :: (rest ++ ['\n'])) = _
    rw [chunks, if_neg hc, hRest]
    rfl

theorem lines_append {front back : Text} (h : EndsLine front) :
    lines (front ++ back) = lines front ++ lines back := by
  unfold lines
  rw [chunks_append h, List.map_append]

/-- A chunk is a line with its newline, or the last line, which may have none. -/
theorem chunk_eq_or {text chunk : Text} (h : chunk ∈ chunks text) :
    (∃ line, chunk = line ++ ['\n'] ∧ '\n' ∉ line) ∨ '\n' ∉ chunk ∧ ¬EndsLine text := by
  induction text generalizing chunk with
  | nil => cases h
  | cons c rest ih =>
    rw [chunks] at h
    split at h
    · rename_i hNewline
      rcases List.mem_cons.mp h with rfl | hMem
      · exact .inl ⟨[], by rw [hNewline]; rfl, by simp⟩
      · rcases ih hMem with hLine | ⟨hNone, hEnds⟩
        · exact .inl hLine
        · exact .inr ⟨hNone, fun hText => hEnds hText.of_cons⟩
    · rename_i hNewline
      have hNe : '\n' ≠ c := fun hEq => hNewline hEq.symm
      cases hChunks : chunks rest with
      | nil =>
        have hEmpty := chunks_eq_nil_iff.mp hChunks
        rw [hChunks] at h
        obtain rfl := List.mem_singleton.mp h
        refine .inr ⟨by simp [hNe], ?_⟩
        intro hText
        rw [hEmpty] at hText
        exact hNewline (hText c rfl)
      | cons first others =>
        rw [hChunks] at h ih
        rcases List.mem_cons.mp h with rfl | hMem
        · rcases ih List.mem_cons_self with ⟨line, rfl, hLine⟩ | ⟨hNone, hEnds⟩
          · exact .inl ⟨c :: line, rfl, by simp [hNe, hLine]⟩
          · exact .inr ⟨by simp [hNe, hNone], fun hText => hEnds hText.of_cons⟩
        · rcases ih (List.mem_cons_of_mem _ hMem) with hLine | ⟨hNone, hEnds⟩
          · exact .inl hLine
          · exact .inr ⟨hNone, fun hText => hEnds hText.of_cons⟩

/-- All chunks in front of another one end with a newline. -/
theorem exists_of_chunks_eq {text : Text} {front back : List Text}
    (h : chunks text = front ++ back) (hBack : back ≠ []) :
    ∀ chunk ∈ front, ∃ line, chunk = line ++ ['\n'] := by
  induction text generalizing front with
  | nil =>
    have hFront : front = [] := (List.append_eq_nil_iff.mp h.symm).1
    rw [hFront]
    intro chunk hMem
    cases hMem
  | cons c rest ih =>
    cases front with
    | nil =>
      intro chunk hMem
      cases hMem
    | cons first front =>
      rw [chunks] at h
      split at h
      · rename_i hc
        obtain ⟨rfl, hRest⟩ := List.cons.inj h
        intro chunk hMem
        rcases List.mem_cons.mp hMem with rfl | hTail
        · exact ⟨[], by rw [hc]; rfl⟩
        · exact ih hRest chunk hTail
      · cases hChunks : chunks rest with
        | nil =>
          rw [hChunks] at h
          obtain ⟨-, hNil⟩ := List.cons.inj h
          exact absurd (List.append_eq_nil_iff.mp hNil.symm).2 hBack
        | cons line others =>
          rw [hChunks] at h
          obtain ⟨rfl, hOthers⟩ := List.cons.inj h
          have hLines := @ih (line :: front) (by rw [hChunks, hOthers]; rfl)
          intro chunk hMem
          rcases List.mem_cons.mp hMem with rfl | hTail
          · obtain ⟨front, rfl⟩ := hLines line List.mem_cons_self
            exact ⟨c :: front, rfl⟩
          · exact hLines chunk (List.mem_cons_of_mem _ hTail)

/-- Such a chunk is a line with its newline. -/
theorem dropLast_of_chunks_eq {text : Text} {front back : List Text}
    (h : chunks text = front ++ back) (hBack : back ≠ []) {chunk : Text} (hMem : chunk ∈ front) :
    chunk.dropLast ++ ['\n'] = chunk ∧ '\n' ∉ chunk.dropLast := by
  obtain ⟨line, hLine⟩ := exists_of_chunks_eq h hBack chunk hMem
  have hChunk : chunk ∈ chunks text := by
    rw [h]
    exact List.mem_append_left _ hMem
  rcases chunk_eq_or hChunk with ⟨other, rfl, hOther⟩ | ⟨hNone, -⟩
  · rw [List.dropLast_concat]
    exact ⟨rfl, hOther⟩
  · exact absurd (by rw [hLine]; simp) hNone

theorem endsLine_of_chunks_eq {text : Text} {front back : List Text}
    (h : chunks text = front ++ back) (hBack : back ≠ []) : EndsLine front.flatten := by
  rw [← List.flatMap_id']
  apply endsLine_flatMap
  intro chunk hMem
  obtain ⟨line, rfl⟩ := exists_of_chunks_eq h hBack chunk hMem
  exact endsLine_concat line

/-- The ending of a line is its newline, or its newline and a carriage return. -/
theorem stripTerminator_concat_or (line : Text) :
    stripTerminator (line ++ ['\n']) = line ∨
      line = stripTerminator (line ++ ['\n']) ++ ['\r'] := by
  have hReverse : (line ++ ['\n']).reverse = '\n' :: line.reverse := List.reverse_append
  unfold stripTerminator
  rw [hReverse]
  split
  · rename_i front hFront
    right
    have hReturn : line.reverse = '\r' :: front := (List.cons.inj hFront).2
    rw [← List.reverse_reverse line, hReturn, List.reverse_cons]
  · rename_i front _ hFront
    left
    obtain rfl : line.reverse = front := (List.cons.inj hFront).2
    exact List.reverse_reverse line
  · rename_i _ hNone
    exact absurd rfl (hNone line.reverse)

theorem stripTerminator_concat {line : Text} (h : '\r' ∉ line) :
    stripTerminator (line ++ ['\n']) = line := by
  rcases stripTerminator_concat_or line with hSame | hReturn
  · exact hSame
  · exact absurd (by rw [hReturn]; simp) h

theorem stripTerminator_of_not_mem {chunk : Text} (h : '\n' ∉ chunk) :
    stripTerminator chunk = chunk := by
  unfold stripTerminator
  split
  · rename_i front hFront
    have hMem : '\n' ∈ chunk.reverse := by rw [hFront]; exact List.mem_cons_self
    exact absurd (List.mem_reverse.mp hMem) h
  · rename_i front _ hFront
    have hMem : '\n' ∈ chunk.reverse := by rw [hFront]; exact List.mem_cons_self
    exact absurd (List.mem_reverse.mp hMem) h
  · rfl

theorem newline_not_mem_of_mem_lines {text line : Text} (h : line ∈ lines text) : '\n' ∉ line := by
  obtain ⟨chunk, hChunk, rfl⟩ := List.mem_map.mp h
  rcases chunk_eq_or hChunk with ⟨front, rfl, hFront⟩ | ⟨hNone, -⟩
  · rcases stripTerminator_concat_or front with hSame | hReturn
    · rw [hSame]
      exact hFront
    · rw [hReturn] at hFront
      intro hMem
      exact hFront (List.mem_append_left _ hMem)
  · rw [stripTerminator_of_not_mem hNone]
    exact hNone

/-- Lines with a newline behind each. -/
def ofLines (lines : List Text) : Text := lines.flatMap (· ++ ['\n'])

theorem endsLine_ofLines (lines : List Text) : EndsLine (ofLines lines) :=
  endsLine_flatMap fun line _ => endsLine_concat line

theorem ofLines_dropLast {chunks : List Text}
    (h : ∀ chunk ∈ chunks, chunk.dropLast ++ ['\n'] = chunk) :
    ofLines (chunks.map List.dropLast) = chunks.flatten := by
  rw [ofLines, List.flatMap_map, List.flatMap_def, List.map_congr_left h, List.map_id']

/-- Whole lines without carriage returns are what their lines make up. -/
theorem ofLines_lines {text : Text} (hText : EndsLine text) (hReturn : '\r' ∉ text) :
    ofLines (lines text) = text := by
  have hChunk : ∀ chunk ∈ chunks text, stripTerminator chunk ++ ['\n'] = chunk := by
    intro chunk hMem
    rcases chunk_eq_or hMem with ⟨line, rfl, -⟩ | ⟨-, hEnds⟩
    · have hLine : '\r' ∉ line := by
        intro hIn
        apply hReturn
        rw [← chunks_flatten text]
        exact List.mem_flatten_of_mem hMem (List.mem_append_left _ hIn)
      rw [stripTerminator_concat hLine]
    · exact absurd hText hEnds
  unfold ofLines lines
  rw [List.flatMap_def, List.map_map]
  show (text.chunks.map fun chunk => stripTerminator chunk ++ ['\n']).flatten = text
  rw [List.map_congr_left hChunk, List.map_id', chunks_flatten]

/-- The lines of lines. -/
theorem chunks_ofLines {lines : List Text} (h : ∀ line ∈ lines, '\n' ∉ line) :
    chunks (ofLines lines) = lines.map (· ++ ['\n']) := by
  induction lines with
  | nil => rfl
  | cons line rest ih =>
    have hRest := ih fun other hMem => h other (List.mem_cons_of_mem _ hMem)
    show chunks (line ++ ['\n'] ++ ofLines rest) = _
    rw [chunks_append (endsLine_concat line), chunks_line (h line List.mem_cons_self), hRest]
    rfl

theorem lines_ofLines {lines : List Text} (h : ∀ line ∈ lines, '\n' ∉ line) :
    Text.lines (ofLines lines) = lines.map fun line => stripTerminator (line ++ ['\n']) := by
  unfold Text.lines
  rw [chunks_ofLines h, List.map_map]
  rfl

/-! ## Pieces -/

theorem cut_append {separator : Char} (front back : Text) :
    cut separator (front ++ separator :: back) = cut separator front ++ cut separator back := by
  induction front with
  | nil =>
    show cut separator (separator :: back) = [[]] ++ cut separator back
    rw [cut, if_pos rfl]
    rfl
  | cons c rest ih =>
    show cut separator (c :: (rest ++ separator :: back)) = _
    rw [cut, cut, ih]
    split
    · rfl
    · cases hPieces : cut separator rest with
      | nil => exact absurd hPieces (cut_ne_nil separator rest)
      | cons piece others => rfl

theorem pieces_newline (front back : Text) :
    pieces (front ++ '\n' :: back) = pieces front ++ pieces back := cut_append front back

theorem pieces_ne_nil (text : Text) : pieces text ≠ [] := cut_ne_nil '\n' text

theorem pieces_of_not_mem {text : Text} (h : '\n' ∉ text) : pieces text = [text] := by
  unfold pieces
  induction text with
  | nil => rfl
  | cons c rest ih =>
    have hc : c ≠ '\n' := by
      rintro rfl
      exact h List.mem_cons_self
    rw [cut, if_neg hc, ih fun hMem => h (List.mem_cons_of_mem _ hMem)]

/-- What holds no newline is the beginning of the first piece. -/
theorem exists_pieces_append {front : Text} (h : '\n' ∉ front) (text : Text) :
    ∃ first others, pieces text = first :: others ∧
      pieces (front ++ text) = (front ++ first) :: others := by
  induction front with
  | nil =>
    cases hPieces : pieces text with
    | nil => exact absurd hPieces (pieces_ne_nil text)
    | cons first others => exact ⟨first, others, rfl, hPieces⟩
  | cons c rest ih =>
    obtain ⟨first, others, hPieces, hRest⟩ := ih fun hMem => h (List.mem_cons_of_mem _ hMem)
    refine ⟨first, others, hPieces, ?_⟩
    have hc : c ≠ '\n' := by
      rintro rfl
      exact h List.mem_cons_self
    unfold pieces at hRest ⊢
    rw [List.cons_append, cut, if_neg hc, hRest]
    rfl

/-- The pieces of a text of whole lines, the empty one at its end left out. -/
def rows (text : Text) : List Text := (pieces text).dropLast

theorem pieces_append {front back : Text} (h : EndsLine front) :
    pieces (front ++ back) = rows front ++ pieces back := by
  by_cases hFront : front = []
  · rw [hFront]
    rfl
  · obtain ⟨line, rfl⟩ := h.exists_concat hFront
    have hRows : rows (line ++ ['\n']) = pieces line := by
      have hPieces : pieces (line ++ ['\n']) = pieces line ++ [[]] := pieces_newline line []
      unfold rows
      rw [hPieces, List.dropLast_concat]
    rw [hRows, List.append_assoc]
    exact pieces_newline line back

/-- Lines are the pieces that a text with them in front begins with. -/
theorem pieces_ofLines_append {lines : List Text} (h : ∀ line ∈ lines, '\n' ∉ line) (back : Text) :
    pieces (ofLines lines ++ back) = lines ++ pieces back := by
  induction lines with
  | nil => rfl
  | cons line rest ih =>
    have hText : ofLines (line :: rest) ++ back = line ++ '\n' :: (ofLines rest ++ back) := by
      simp [ofLines]
    rw [hText, pieces_newline, pieces_of_not_mem (h line List.mem_cons_self),
      ih fun other hMem => h other (List.mem_cons_of_mem _ hMem)]
    rfl

theorem join_cons_cons (separator first second : Text) (rest : List Text) :
    Text.join separator (first :: second :: rest) =
      first ++ (separator ++ Text.join separator (second :: rest)) := by
  simp [Text.join, List.intercalate]

theorem ofPieces_cons (piece : Text) {pieces : List Text} (h : pieces ≠ []) :
    ofPieces (piece :: pieces) = piece ++ '\n' :: ofPieces pieces := by
  cases pieces with
  | nil => exact absurd rfl h
  | cons next others => simp [ofPieces, join, List.intercalate]

theorem ofPieces_append (rows : List Text) {pieces : List Text} (h : pieces ≠ []) :
    ofPieces (rows ++ pieces) = rows.flatMap (· ++ ['\n']) ++ ofPieces pieces := by
  induction rows with
  | nil => rfl
  | cons row rest ih =>
    have hRest : rest ++ pieces ≠ [] := fun hNil => h (List.append_eq_nil_iff.mp hNil).2
    rw [List.cons_append, ofPieces_cons row hRest, ih]
    simp

theorem ofPieces_pieces (text : Text) : ofPieces (pieces text) = text := by
  unfold pieces
  induction text with
  | nil => rfl
  | cons c rest ih =>
    rw [cut]
    split
    · rename_i hc
      rw [ofPieces_cons [] (cut_ne_nil '\n' rest), ih, hc]
      rfl
    · cases hPieces : cut '\n' rest with
      | nil => exact absurd hPieces (cut_ne_nil '\n' rest)
      | cons piece others =>
        rw [hPieces] at ih
        rw [← ih]
        cases others with
        | nil => rfl
        | cons next others =>
          rw [ofPieces_cons _ (List.cons_ne_nil _ _), ofPieces_cons _ (List.cons_ne_nil _ _)]
          rfl

/-- Whole lines are what their rows make up. -/
theorem ofLines_rows {text : Text} (h : EndsLine text) : ofLines (rows text) = text := by
  have hPieces : pieces (text ++ []) = rows text ++ pieces [] := pieces_append h
  rw [List.append_nil] at hPieces
  calc ofLines (rows text)
    _ = (rows text).flatMap (· ++ ['\n']) ++ ofPieces (pieces []) := (List.append_nil _).symm
    _ = ofPieces (rows text ++ pieces []) := (ofPieces_append _ (pieces_ne_nil [])).symm
    _ = text := by rw [← hPieces, ofPieces_pieces]

/-- The pieces of a text are the lines of the text with a newline behind it. -/
theorem ofLines_pieces (text : Text) : ofLines (pieces text) = text ++ ['\n'] := by
  have hPieces : pieces (text ++ ['\n']) = pieces text ++ [[]] := pieces_newline text []
  have hRows := ofLines_rows (endsLine_concat text)
  rwa [rows, hPieces, List.dropLast_concat] at hRows

/-- A text has as many rows as newlines. -/
theorem length_pieces (text : Text) : (pieces text).length = text.count '\n' + 1 := by
  unfold pieces
  induction text with
  | nil => rfl
  | cons c rest ih =>
    rw [cut]
    split
    · rename_i hc
      rw [hc, List.length_cons, ih, List.count_cons_self]
    · rename_i hc
      rw [List.count_cons_of_ne (fun hEq => hc hEq), ← ih]
      cases hPieces : cut '\n' rest with
      | nil => exact absurd hPieces (cut_ne_nil '\n' rest)
      | cons piece others => rfl

theorem length_rows (text : Text) : (rows text).length = text.count '\n' := by
  unfold rows
  rw [List.length_dropLast, length_pieces, Nat.add_sub_cancel]

/-- A piece holds no newline. -/
theorem newline_not_mem_of_mem_pieces {text piece : Text} (h : piece ∈ pieces text) :
    '\n' ∉ piece := by
  unfold pieces at h
  induction text generalizing piece with
  | nil =>
    rw [List.mem_singleton.mp h]
    nofun
  | cons c rest ih =>
    rw [cut] at h
    split at h
    · rcases List.mem_cons.mp h with rfl | hRest
      · nofun
      · exact ih hRest
    · rename_i hc
      cases hPieces : cut '\n' rest with
      | nil => exact absurd hPieces (cut_ne_nil '\n' rest)
      | cons first others =>
        rw [hPieces] at h ih
        rcases List.mem_cons.mp h with rfl | hRest
        · intro hMem
          rcases List.mem_cons.mp hMem with hEq | hFirst
          · exact hc hEq.symm
          · exact ih List.mem_cons_self hFirst
        · exact ih (List.mem_cons_of_mem _ hRest)

/-- The pieces of pieces put together. -/
theorem pieces_ofPieces {pieces : List Text} (hPieces : ∀ piece ∈ pieces, '\n' ∉ piece)
    (hSome : pieces ≠ []) : Text.pieces (ofPieces pieces) = pieces := by
  induction pieces with
  | nil => exact absurd rfl hSome
  | cons piece rest ih =>
    have hPiece := hPieces piece List.mem_cons_self
    have hRest := fun other hMem => hPieces other (List.mem_cons_of_mem _ hMem)
    by_cases hNil : rest = []
    · rw [hNil]
      have hSelf : ofPieces [piece] = piece := by simp [ofPieces, join, List.intercalate]
      rw [hSelf, pieces_of_not_mem hPiece]
    · rw [ofPieces_cons piece hNil, pieces_newline, pieces_of_not_mem hPiece, ih hRest hNil]
      rfl

/-- A text as its rows, and what stands behind the last newline. -/
theorem exists_rows (text : Text) :
    ∃ rows last, pieces text = rows ++ [last] ∧ text = ofLines rows ++ last ∧
      ∀ row ∈ rows ++ [last], '\n' ∉ row := by
  have hSplit := List.dropLast_concat_getLast (pieces_ne_nil text)
  refine ⟨(pieces text).dropLast, (pieces text).getLast (pieces_ne_nil text), hSplit.symm, ?_, ?_⟩
  · have hText := ofPieces_pieces text
    rw [← hSplit, ofPieces_append _ (List.cons_ne_nil _ _)] at hText
    have hLast (last : Text) : ofPieces [last] = last := by simp [ofPieces, join, List.intercalate]
    rw [hLast] at hText
    exact hText.symm
  · intro row hMem
    rw [hSplit] at hMem
    exact newline_not_mem_of_mem_pieces hMem

theorem chunks_of_not_mem {text : Text} (h : '\n' ∉ text) (hText : text ≠ []) :
    chunks text = [text] := by
  induction text with
  | nil => exact absurd rfl hText
  | cons c rest ih =>
    have hc : c ≠ '\n' := by
      rintro rfl
      exact h List.mem_cons_self
    rw [chunks, if_neg hc]
    cases rest with
    | nil => rfl
    | cons d more => rw [ih (fun hMem => h (List.mem_cons_of_mem _ hMem)) (List.cons_ne_nil _ _)]

/-- The lines of a text are its rows, without the carriage returns at their ends, and what
stands behind the last newline, if there is anything. -/
theorem exists_lines_eq (text : Text) :
    ∃ rows last, pieces text = rows ++ [last] ∧
      Text.lines text = rows.map (fun row => stripTerminator (row ++ ['\n'])) ++
        if last = [] then [] else [last] := by
  obtain ⟨rows, last, hPieces, hText, hRows⟩ := exists_rows text
  refine ⟨rows, last, hPieces, ?_⟩
  have hLast := hRows last (List.mem_append_right _ List.mem_cons_self)
  rw [hText, lines_append (endsLine_ofLines rows),
    lines_ofLines fun row hMem => hRows row (List.mem_append_left _ hMem)]
  congr 1
  split
  · rename_i hNil
    rw [hNil]
    rfl
  · rename_i hSome
    rw [Text.lines, chunks_of_not_mem hLast hSome, List.map_singleton,
      stripTerminator_of_not_mem hLast]

/-! ## Lines and their endings -/

/-- What follows a line in a text: the newline that ends it, with a carriage return in front of it
if there is one, or nothing. -/
inductive LineEnding (line : Text) : (behind : Text) → Prop
  | newline {rest : Text} (h : line.getLast? ≠ some '\r') : LineEnding line ('\n' :: rest)
  | returned {rest : Text} : LineEnding line ('\r' :: '\n' :: rest)
  | finish : LineEnding line []

theorem stripTerminator_of_getLast? {line : Text} (h : line.getLast? ≠ some '\r') :
    stripTerminator (line ++ ['\n']) = line := by
  rcases stripTerminator_concat_or line with hSame | hReturn
  · exact hSame
  · exact absurd (by rw [hReturn, List.getLast?_concat]) h

theorem stripTerminator_returned (line : Text) :
    stripTerminator (line ++ ['\r'] ++ ['\n']) = line := by
  simp [stripTerminator]

/-- The first line of a text, in front of its ending. -/
theorem exists_lines_of_lineEnding {line behind : Text} (hLine : '\n' ∉ line) (hSome : line ≠ [])
    (h : LineEnding line behind) : ∃ after, lines (line ++ behind) = line :: after := by
  have hFirst {front rest : Text} (hFront : '\n' ∉ front)
      (hStrip : stripTerminator (front ++ ['\n']) = line) :
      lines (front ++ '\n' :: rest) = line :: lines rest := by
    have hSplit : front ++ '\n' :: rest = (front ++ ['\n']) ++ rest := by simp
    rw [hSplit, lines_append (endsLine_concat front), lines, chunks_line hFront,
      List.map_singleton, hStrip, List.singleton_append]
  cases h with
  | @newline rest hLast => exact ⟨_, hFirst hLine (stripTerminator_of_getLast? hLast)⟩
  | @returned rest =>
    have hSplit : line ++ '\r' :: '\n' :: rest = (line ++ ['\r']) ++ '\n' :: rest := by simp
    rw [hSplit]
    exact ⟨_, hFirst (by simpa using hLine) (stripTerminator_returned line)⟩
  | finish =>
    refine ⟨[], ?_⟩
    rw [List.append_nil, lines, chunks_of_not_mem hLine hSome, List.map_singleton,
      stripTerminator_of_not_mem hLine]

/-- Whole lines are as many as their newlines. -/
theorem length_chunks_of_endsLine {text : Text} (h : EndsLine text) :
    (chunks text).length = text.count '\n' := by
  have hRows : ∀ row ∈ rows text, '\n' ∉ row := fun row hRow =>
    newline_not_mem_of_mem_pieces (List.dropLast_subset _ hRow)
  have hChunks := chunks_ofLines hRows
  rw [ofLines_rows h] at hChunks
  rw [hChunks, List.length_map, length_rows]

theorem length_lines_of_endsLine {text : Text} (h : EndsLine text) :
    (lines text).length = text.count '\n' := by
  rw [lines, List.length_map, length_chunks_of_endsLine h]

/-- What begins a line and ends with no carriage return lies within that line. -/
theorem exists_lineEnding {front : Text} (hFront : '\n' ∉ front)
    (hLast : front.getLast? ≠ some '\r') (back : Text) :
    ∃ line behind, front ++ back = line ++ behind ∧ front <+: line ∧ '\n' ∉ line ∧
      LineEnding line behind := by
  have hBack := List.takeWhile_append_dropWhile (p := (· != '\n')) (l := back)
  have hStem : '\n' ∉ back.takeWhile (· != '\n') := fun hMem => by
    have hAll := List.all_takeWhile (p := (· != '\n')) (l := back)
    simpa using List.all_eq_true.mp hAll _ hMem
  generalize back.takeWhile (· != '\n') = stem at hBack hStem
  have hWhole : '\n' ∉ front ++ stem := by simp [hFront, hStem]
  cases hTail : back.dropWhile (· != '\n') with
  | nil =>
    rw [hTail, List.append_nil] at hBack
    exact ⟨front ++ stem, [], by rw [hBack, List.append_nil], List.prefix_append _ _, hWhole,
      .finish⟩
  | cons c rest =>
    have hNewline : c = '\n' := by
      have hHead := List.head?_dropWhile_not (p := (· != '\n')) (l := back)
      rw [hTail] at hHead
      simpa using hHead
    rw [hTail, hNewline] at hBack
    by_cases hReturn : stem.getLast? = some '\r'
    · -- the carriage return belongs to the ending
      obtain ⟨inner, rfl⟩ := List.getLast?_eq_some_iff.mp hReturn
      have hInner : '\n' ∉ front ++ inner := by
        simp only [List.mem_append, not_or] at hWhole ⊢
        exact ⟨hWhole.1, hWhole.2.1⟩
      refine ⟨front ++ inner, '\r' :: '\n' :: rest, ?_, List.prefix_append _ _, hInner, .returned⟩
      rw [← hBack]
      simp
    · refine ⟨front ++ stem, '\n' :: rest, ?_, List.prefix_append _ _, hWhole, .newline ?_⟩
      · rw [← hBack, List.append_assoc]
      · rw [List.getLast?_append]
        cases hStemLast : stem.getLast? with
        | none => exact hLast
        | some last =>
          rw [hStemLast] at hReturn
          exact hReturn

theorem lineOf_append {front : Text} {position : Nat} (h : position ≤ front.length)
    (back : Text) : lineOf (front ++ back) position = front.lineOf position := by
  rw [lineOf, List.take_append_of_le_length h]
  rfl

theorem lineOf_append_right (front back : Text) (position : Nat) :
    lineOf (front ++ back) (position + front.length) =
      back.lineOf position + front.count '\n' := by
  rw [lineOf, Nat.add_comm position, List.take_length_add_append, List.count_append,
    lineOf]
  omega

theorem lineOf_le_count {text : Text} (h : EndsLine text) {position : Nat}
    (hPosition : position < text.length) : text.lineOf position ≤ text.count '\n' := by
  have hSome : text ≠ [] := by
    rintro rfl
    cases hPosition
  obtain ⟨front, rfl⟩ := h.exists_concat hSome
  rw [List.length_append, List.length_singleton] at hPosition
  rw [lineOf_append (by omega), lineOf, List.count_append]
  have hLe := (List.take_sublist position front).count_le '\n'
  simp only [List.count_singleton_self]
  omega

/-- Lines of a text that are not its last ones, without what ends them. -/
theorem take_pieces_of_chunks_eq {text : Text} {front back : List Text}
    (h : text.chunks = front ++ back) (hBack : back ≠ []) :
    text.pieces.take front.length = front.map List.dropLast := by
  have hWhole : ∀ chunk ∈ front, chunk.dropLast ++ ['\n'] = chunk ∧ '\n' ∉ chunk.dropLast :=
    fun chunk hMem => dropLast_of_chunks_eq h hBack hMem
  have hText : text = ofLines (front.map List.dropLast) ++ back.flatten := by
    rw [ofLines_dropLast fun chunk hMem => (hWhole chunk hMem).1, ← List.flatten_append, ← h,
      chunks_flatten]
  have hNoNewline : ∀ row ∈ front.map List.dropLast, '\n' ∉ row := by
    intro row hMem
    obtain ⟨chunk, hChunk, rfl⟩ := List.mem_map.mp hMem
    exact (hWhole chunk hChunk).2
  rw [hText, pieces_ofLines_append hNoNewline]
  exact List.take_left' (List.length_map ..)

theorem take_pieces_append (front back : Text) (position : Nat) :
    (pieces (front ++ back)).take (front.lineOf position - 1) =
      front.pieces.take (front.lineOf position - 1) := by
  obtain ⟨rows, last, hPieces, hText, hRows⟩ := exists_rows front
  have hLine : front.lineOf position - 1 ≤ rows.length := by
    have hCount := (List.take_sublist position front).count_le '\n'
    have hLength := front.length_pieces
    rw [hPieces, List.length_append, List.length_singleton] at hLength
    rw [lineOf]
    omega
  have hBoth : pieces (front ++ back) = rows ++ pieces (last ++ back) := by
    rw [← pieces_ofLines_append fun row hRow => hRows row (List.mem_append_left _ hRow),
      ← List.append_assoc, ← hText]
  rw [hBoth, hPieces, List.take_append_of_le_length hLine, List.take_append_of_le_length hLine]

end XdrBindings.Text
