import XdrBindings.Proofs.Code.ClassParts

/-!
# The lines that hold code

A line holds code if one of its characters is code and not blank.  Such lines are listed
without the blanks around them, so that neither their indentation nor blanks at their end
matter.

What is written behind a closed class body, below its last line, adds lines of code and takes
none away, if the closing brace of the class begins its own line.

## Main results

* `codeRows_append` — the lines of a text from a place on.
* `codeLines_append_blanks` — blanks at the end do not matter.
* `codeLines_written_sublist` — a body with something written behind it.
-/

namespace XdrBindings.Code

/-- Of the lines of a text those that hold code which is not blank, without the blanks around
them, where the reader stands in front of the first line. -/
def codeRows (reader : Reader) : List Text → List Text
  | [] => []
  | row :: rest =>
    let others := codeRows (reader.after (row ++ ['\n'])) rest
    if Text.isBlankText (reader.codeChars row) then others else Text.trim row :: others

/-- The lines of a text that hold code which is not blank, without the blanks around them. -/
def codeLines (text : Text) : List Text := codeRows .start text.pieces

/-! ## Parts of a text -/

theorem codeRows_append (reader : Reader) (rows more : List Text) :
    codeRows reader (rows ++ more) =
      codeRows reader rows ++ codeRows (reader.after (Text.ofLines rows)) more := by
  induction rows generalizing reader with
  | nil => rfl
  | cons row rest ih =>
    have hAfter : reader.after (Text.ofLines (row :: rest)) =
        (reader.after (row ++ ['\n'])).after (Text.ofLines rest) :=
      Reader.after_append _ (cut_of_endsLine (Text.endsLine_concat row) _)
    rw [List.cons_append, codeRows, codeRows, ih, hAfter]
    split <;> rfl

theorem Reader.Alike.codeRows_eq {reader other : Reader} (h : reader.Alike other)
    (rows : List Text) : codeRows reader rows = codeRows other rows := by
  cases rows with
  | nil => rfl
  | cons row rest =>
    cases row with
    | nil => simp only [codeRows, Reader.codeChars, Text.isBlankText, List.all_nil, if_true,
        List.nil_append, Reader.after_cons, h.step_eq]
    | cons c row =>
      simp only [codeRows, h.codeChars_eq, List.cons_append, Reader.after_cons, h.step_eq]

theorem codeRows_sublist (reader : Reader) (rows : List Text) :
    (codeRows reader rows).Sublist (rows.map Text.trim) := by
  induction rows generalizing reader with
  | nil => exact List.Sublist.slnil
  | cons row rest ih =>
    unfold codeRows
    dsimp only
    split
    · exact (ih _).cons _
    · exact (ih _).cons_cons _

theorem codeLines_sublist (text : Text) :
    (codeLines text).Sublist (text.pieces.map Text.trim) := codeRows_sublist _ _

theorem isBlankText_codeChars {text : Text} (h : ∀ c ∈ text, Text.isBlank c = true)
    (reader : Reader) : Text.isBlankText (reader.codeChars text) = true :=
  List.all_eq_true.mpr fun c hc => h c (Reader.mem_of_mem_codeChars hc)

/-- Blank lines hold no code. -/
theorem codeRows_of_blank {rows : List Text} (h : ∀ row ∈ rows, ∀ c ∈ row, Text.isBlank c = true)
    (reader : Reader) : codeRows reader rows = [] := by
  induction rows generalizing reader with
  | nil => rfl
  | cons row rest ih =>
    obtain ⟨hRow, hRest⟩ := List.forall_mem_cons.mp h
    rw [codeRows, if_pos (isBlankText_codeChars hRow _), ih hRest]

theorem codeLines_newline (front back : Text) :
    codeLines (front ++ '\n' :: back) =
      codeLines front ++ codeRows (Reader.start.after (front ++ ['\n'])) back.pieces := by
  have hFront : Text.ofLines front.pieces = front ++ ['\n'] := by
    have hPieces := Text.ofPieces_append front.pieces (List.cons_ne_nil ([] : Text) [])
    rw [← Text.ofPieces_pieces (front ++ ['\n']), Text.pieces_newline]
    exact (hPieces.trans (List.append_nil _)).symm
  rw [codeLines, Text.pieces_newline, codeRows_append, hFront]
  rfl

/-! ## Blanks -/

theorem mem_of_mem_pieces {text piece : Text} (h : piece ∈ text.pieces) {c : Char}
    (hc : c ∈ piece) : c ∈ text := by
  induction text generalizing piece with
  | nil =>
    obtain rfl := List.mem_singleton.mp h
    cases hc
  | cons d rest ih =>
    unfold Text.pieces Text.cut at h
    split at h
    · rcases List.mem_cons.mp h with rfl | hRest
      · cases hc
      · exact List.mem_cons_of_mem _ (ih hRest hc)
    · split at h
      · obtain rfl := List.mem_singleton.mp h
        rw [List.mem_singleton.mp hc]
        exact List.mem_cons_self
      · rename_i first others hCut
        have hPieces : Text.pieces rest = first :: others := hCut
        rcases List.mem_cons.mp h with rfl | hRest
        · rcases List.mem_cons.mp hc with rfl | hFirst
          · exact List.mem_cons_self
          · exact List.mem_cons_of_mem _ (ih (hPieces ▸ List.mem_cons_self) hFirst)
        · exact List.mem_cons_of_mem _ (ih (hPieces ▸ List.mem_cons_of_mem _ hRest) hc)

/-- Blanks behind the last line do not matter. -/
theorem codeRows_blanks_behind (reader : Reader) (rows : List Text) (last : Text) {blanks : Text}
    (h : ∀ c ∈ blanks, Text.isBlank c = true) :
    codeRows reader (rows ++ [last ++ blanks]) = codeRows reader (rows ++ [last]) := by
  have hBlank : Text.isBlankText blanks = true := List.all_eq_true.mpr h
  rw [codeRows_append, codeRows_append]
  congr 1
  simp only [codeRows]
  rw [Reader.codeChars_append _ (cut_of_isBlank last h), Text.isBlankText_append,
    isBlankText_codeChars h, Bool.and_true, Text.trim_append_of_isBlankText hBlank]

/-- Blanks at the end of a text do not matter. -/
theorem codeLines_append_blanks (text : Text) {blanks : Text}
    (h : ∀ c ∈ blanks, Text.isBlank c = true) : codeLines (text ++ blanks) = codeLines text := by
  obtain ⟨rows, last, hPieces, hText, hRows⟩ := Text.exists_rows text
  have hLine {line : Text} (hLine : '\n' ∉ line) (hBlanks : ∀ c ∈ line, Text.isBlank c = true) :
      codeLines (text ++ line) = codeLines text := by
    have hLast : '\n' ∉ last ++ line := by
      intro hMem
      rcases List.mem_append.mp hMem with hMem | hMem
      · exact hRows last (by simp) hMem
      · exact hLine hMem
    have hNoNewline : ∀ row ∈ rows, '\n' ∉ row := fun row hRow =>
      hRows row (List.mem_append_left _ hRow)
    rw [codeLines, codeLines, hPieces, hText, List.append_assoc,
      Text.pieces_ofLines_append hNoNewline, Text.pieces_of_not_mem hLast]
    exact codeRows_blanks_behind _ _ _ hBlanks
  by_cases hNewline : '\n' ∈ blanks
  · obtain ⟨line, rest, rfl, hFirst⟩ := List.eq_append_cons_of_mem hNewline
    have hRest : ∀ row ∈ Text.pieces rest, ∀ c ∈ row, Text.isBlank c = true := fun row hRow c hc =>
      h c (List.mem_append_right _ (List.mem_cons_of_mem _ (mem_of_mem_pieces hRow hc)))
    rw [← List.append_assoc, codeLines_newline, codeRows_of_blank hRest, List.append_nil]
    exact hLine hFirst fun c hc => h c (List.mem_append_left _ hc)
  · exact hLine hNewline h

/-- Blanks in front of the first line do not matter where they are code. -/
theorem codeLines_blanks_append {blanks : Text} (h : ∀ c ∈ blanks, Text.isBlank c = true)
    (hLine : '\n' ∉ blanks) (text : Text) : codeLines (blanks ++ text) = codeLines text := by
  obtain ⟨first, others, hPieces, hBlanks⟩ := Text.exists_pieces_append hLine text
  have hInert : ∀ c ∈ blanks, isInert c = true := fun c hc =>
    isInert_of_isBlank (h c hc) fun hEq => hLine (hEq ▸ hc)
  have hAfter : (Reader.start.after blanks).Alike Reader.start := Reader.after_inert hInert .code
  have hCut (back : Text) : Cut blanks back := Reader.cut_of_inert hInert back
  have hCode : Text.isBlankText (Reader.start.codeChars (blanks ++ first)) =
      Text.isBlankText (Reader.start.codeChars first) := by
    rw [Reader.codeChars_append _ (hCut _), Text.isBlankText_append, isBlankText_codeChars h,
      Bool.true_and, hAfter.codeChars_eq]
  have hTrim : Text.trim (blanks ++ first) = Text.trim first :=
    congrArg Text.trimEnd (Text.trimStart_append h first)
  have hRest : codeRows (Reader.start.after (blanks ++ first ++ ['\n'])) others =
      codeRows (Reader.start.after (first ++ ['\n'])) others := by
    rw [List.append_assoc, Reader.after_append _ (hCut _)]
    exact (hAfter.after _).codeRows_eq _
  rw [codeLines, codeLines, hPieces, hBlanks]
  simp only [codeRows, hCode, hTrim, hRest]

/-! ## Behind a class body -/

/-- The line that a body ends in is blank, and not the line that it begins in. -/
def EndsOnOwnLine (body : Text) : Prop :=
  '\n' ∈ body ∧ ∀ line ∈ body.pieces.getLast?, Text.isBlankText line = true

instance (body : Text) : Decidable (EndsOnOwnLine body) :=
  inferInstanceAs (Decidable ('\n' ∈ body ∧
    ∀ line ∈ body.pieces.getLast?, Text.isBlankText line = true))

theorem EndsOnOwnLine.exists_indent {body : Text} (h : EndsOnOwnLine body) :
    ∃ upper indent, body = upper ++ '\n' :: indent ∧ '\n' ∉ indent ∧
      ∀ c ∈ indent, Text.isBlank c = true := by
  obtain ⟨rows, last, hPieces, hBody, hRows⟩ := Text.exists_rows body
  have hLast : '\n' ∉ last := hRows last (by simp)
  have hBlank : ∀ c ∈ last, Text.isBlank c = true :=
    List.all_eq_true.mp (h.2 last (by rw [hPieces]; simp))
  rcases List.eq_nil_or_concat rows with rfl | ⟨rows, row, rfl⟩
  · rw [hBody] at h
    exact absurd h.1 hLast
  · refine ⟨Text.ofLines rows ++ row, last, ?_, hLast, hBlank⟩
    rw [hBody]
    simp [Text.ofLines]

/-- Behind a closed text that follows a brace, and a newline, reading begins anew. -/
theorem after_brace_closed {front body : Text}
    (hFront : (Reader.start.after front).Alike
      (Reader.inCode (Reader.start.after front).behind))
    (hBody : IsClosed body) (hLine : Text.EndsLine body) :
    (Reader.start.after (front ++ '{' :: body)).Alike .start := by
  rw [Reader.after_append _ (cut_of_head rfl), Reader.after_cons, hFront.step_eq]
  exact hBody.after_line hLine

theorem isClosed_upper {upper indent : Text} (h : IsClosed (upper ++ '\n' :: indent))
    (hLine : '\n' ∉ indent) (hIndent : ∀ c ∈ indent, Text.isBlank c = true) :
    IsClosed (upper ++ ['\n']) := by
  have hText : upper ++ '\n' :: indent = (upper ++ ['\n']) ++ indent := by simp
  rw [hText] at h
  have hInert : ∀ c ∈ indent, isInert c = true := fun c hc =>
    isInert_of_isBlank (hIndent c hc) fun hEq => hLine (hEq ▸ hc)
  obtain ⟨mode, hMode⟩ :=
    Reader.exists_after_newline (Reader.owes_of_held_eq_zero rfl upper : Reader.start.Owes upper)
  have hEnds := h.ends
  rw [Reader.after_append _ (cut_of_isBlank _ hIndent), (hMode.after indent).mode,
    (Reader.after_inert hInert mode).mode] at hEnds
  exact ⟨hMode.mode.trans hEnds, h.balanced_front rfl hIndent⟩

/-- What is written below the last line of a class body leaves the lines of code around it as
they are. -/
theorem codeLines_written_sublist {front body written : Text}
    (hFront : (Reader.start.after front).Alike
      (Reader.inCode (Reader.start.after front).behind))
    (hBody : IsClosed body) (hOwn : EndsOnOwnLine body)
    (hWritten : IsClosed (Text.trimEnd body ++ ['\n'] ++ written)) (hLine : Text.EndsLine written)
    (back : Text) :
    (codeLines (front ++ '{' :: (body ++ '}' :: back))).Sublist
      (codeLines (front ++ '{' :: (Text.trimEnd body ++ ['\n'] ++ written ++ '}' :: back))) := by
  obtain ⟨upper, indent, rfl, hIndentLine, hIndent⟩ := hOwn.exists_indent
  have hBlank : Text.isBlankText ('\n' :: indent) = true :=
    List.all_eq_true.mpr (List.forall_mem_cons.mpr ⟨rfl, hIndent⟩)
  rw [Text.trimEnd_append_of_isBlankText hBlank] at hWritten ⊢
  obtain ⟨blanks, hUpper, hBlanks⟩ := Text.exists_trimEnd upper
  -- the text with its own body
  have hOwnText : front ++ '{' :: (upper ++ '\n' :: indent ++ '}' :: back) =
      (front ++ '{' :: upper) ++ '\n' :: (indent ++ '}' :: back) := by simp
  have hUpperText : front ++ '{' :: upper = (front ++ '{' :: Text.trimEnd upper) ++ blanks := by
    rw [List.append_assoc, List.cons_append, ← hUpper]
  have hOwnReader : (Reader.start.after (front ++ '{' :: upper ++ ['\n'])).Alike .start := by
    rw [List.append_assoc]
    exact after_brace_closed hFront (isClosed_upper hBody hIndentLine hIndent)
      (Text.endsLine_concat upper)
  have hOwnLines : codeLines (front ++ '{' :: (upper ++ '\n' :: indent ++ '}' :: back)) =
      codeLines (front ++ '{' :: Text.trimEnd upper) ++ codeLines ('}' :: back) := by
    rw [hOwnText, codeLines_newline, hOwnReader.codeRows_eq, ← codeLines,
      codeLines_blanks_append hIndent hIndentLine, hUpperText, codeLines_append_blanks _ hBlanks]
  -- the text with what is written
  have hText : front ++ '{' :: (Text.trimEnd upper ++ ['\n'] ++ written ++ '}' :: back) =
      (front ++ '{' :: Text.trimEnd upper) ++ '\n' :: (written ++ '}' :: back) := by simp
  have hReader : ((Reader.start.after (front ++ '{' :: Text.trimEnd upper ++ ['\n'])).after
      written).Alike .start := by
    rw [← Reader.after_append _ (cut_of_endsLine (Text.endsLine_concat _) _)]
    have hAround := after_brace_closed hFront hWritten (.append (Text.endsLine_concat _) hLine)
    rwa [List.append_assoc, List.append_assoc, List.cons_append, ← List.append_assoc]
  rw [hOwnLines, hText, codeLines_newline, Text.pieces_append hLine, codeRows_append,
    Text.ofLines_rows hLine, hReader.codeRows_eq, ← codeLines]
  exact List.Sublist.append_left (List.sublist_append_right _ _) _

/-! ## All bodies -/

/-- Behind a class reading begins anew. -/
theorem after_class {front body : Text}
    (hFront : (Reader.start.after front).Alike
      (Reader.inCode (Reader.start.after front).behind)) (hBody : IsClosed body) :
    (Reader.start.after (front ++ '{' :: (body ++ ['}']))).Alike .start := by
  rw [Reader.after_append _ (cut_of_head rfl), Reader.after_cons, hFront.step_eq]
  show (Reader.start.after (body ++ ['}'])).Alike .start
  rw [Reader.after_append _ (cut_of_head rfl), Reader.after_cons, hBody.after.step_eq]
  exact Reader.Alike.refl _

/-- A body is as it was, or something is written below its last line. -/
def AddsBelow (body other : Text) : Prop :=
  other = body ∨ EndsOnOwnLine body ∧ ∃ written, Text.EndsLine written ∧
    other = Text.trimEnd body ++ ['\n'] ++ written

/-- What is written below the last lines of class bodies leaves the lines of code around it as
they are. -/
theorem codeLines_assembled_sublist {parts : List ClassPart} (hParts : AreParts parts)
    {first second : ClassPart → Text} (hFirst : ∀ part ∈ parts, IsClosed (first part))
    (hSecond : ∀ part ∈ parts, IsClosed (second part))
    (hAdds : ∀ part ∈ parts, AddsBelow (first part) (second part)) (tail : Text) :
    (codeLines (assembled (parts.map fun part => part.withBody (first part)) tail)).Sublist
      (codeLines (assembled (parts.map fun part => part.withBody (second part)) tail)) := by
  -- induction on the classes that are left, behind those that have their new bodies
  have key (done : Text) (hDone : (Reader.start.after done).Alike .start)
      (hCut : ∀ back, Cut done back) :
      (codeLines (done ++ assembled (parts.map fun part => part.withBody (first part))
          tail)).Sublist
        (codeLines (done ++ assembled (parts.map fun part => part.withBody (second part))
          tail)) := by
    induction parts generalizing done with
    | nil => exact List.Sublist.refl _
    | cons part rest ih =>
      obtain ⟨⟨keyword, hPart⟩, hRest⟩ := List.forall_mem_cons.mp hParts
      obtain ⟨hOwn, hOwnRest⟩ := List.forall_mem_cons.mp hFirst
      obtain ⟨hOther, hOtherRest⟩ := List.forall_mem_cons.mp hSecond
      obtain ⟨hHere, hHereRest⟩ := List.forall_mem_cons.mp hAdds
      have hFront : (Reader.start.after (done ++ part.front)).Alike
          (Reader.inCode (Reader.start.after (done ++ part.front)).behind) := by
        have hAlike : (Reader.start.after (done ++ part.front)).Alike
            (Reader.start.after part.front) := by
          rw [Reader.after_append _ (hCut _)]
          exact hDone.after _
        exact ⟨rfl, hAlike.mode.trans hPart.inCode.mode, hAlike.held.trans hPart.inCode.held,
          fun hHeld => absurd (hAlike.held.trans hPart.inCode.held) hHeld⟩
      have hText (body back : Text) : done ++ ((part.withBody body).text ++ back) =
          (done ++ part.front) ++ '{' :: (body ++ '}' :: back) := by
        rw [ClassPart.text_append, List.append_assoc]
        rfl
      have hNext (body back : Text) : done ++ ((part.withBody body).text ++ back) =
          ((done ++ part.front) ++ '{' :: (body ++ ['}'])) ++ back := by
        rw [hText]
        simp
      have hBody (back : Text) : (codeLines (done ++ ((part.withBody (first part)).text ++
          back))).Sublist (codeLines (done ++ ((part.withBody (second part)).text ++ back))) := by
        rcases hHere with hSame | ⟨hLine, written, hWritten, hEq⟩
        · rw [hSame]
        · rw [hText, hText, hEq]
          rw [hEq] at hOther
          exact codeLines_written_sublist hFront hOwn hLine hOther hWritten back
      have hLast : ∀ back, Cut ((done ++ part.front) ++ '{' :: (second part ++ ['}'])) back := by
        intro back
        rw [← List.cons_append, ← List.append_assoc]
        exact cut_of_last rfl
      have hLater := ih hRest hOwnRest hOtherRest hHereRest _ (after_class hFront hOther) hLast
      rw [← hNext, ← hNext] at hLater
      exact (hBody _).trans hLater
  exact key [] (Reader.Alike.refl _) fun back => .inr nofun

end XdrBindings.Code
