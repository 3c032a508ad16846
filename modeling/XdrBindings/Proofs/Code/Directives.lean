import XdrBindings.Code.Import
import XdrBindings.Proofs.Text.Lines
import XdrBindings.Proofs.Text.Trim

/-!
# Import directives and the first line of code

The import and class lines of a text begin at the beginning of a line, with spaces and tabs at
most in front of their first word.  Directives are read off the lines of a text one by one, so
the directives of two parts are those of the whole, and blanks around a text hold none.

## Main results

* `endsLine_of_firstHead?`, `exists_of_firstHead?` — where the first import or class line stands.
* `importsOf_eq` — the directives among the pieces of a text.
* `importsOf_append`, `importsOf_trim` — the directives of two parts, and without blanks around.
* `mem_importsOf_of_headerOf` — the directives of a header are directives of its text.
-/

namespace XdrBindings.Code

/-! ## Where import and class lines stand -/

/-- The words that import and class lines begin with. -/
def headWords : List Text := importWord :: "class".toList :: classModifiers

theorem head?_of_mem_headWords {word : Text} (h : word ∈ headWords) :
    word.head?.any (!Text.isBlank ·) = true := by
  have hAll : headWords.all (fun word => word.head?.any (!Text.isBlank ·)) = true := rfl
  exact List.all_eq_true.mp hAll word h

theorem startsWith_of_afterWord? {word line rest : Text} (h : afterWord? word line = some rest) :
    Text.startsWith line word = true := by
  unfold afterWord? at h
  split at h
  · assumption
  · cases h

/-- One of the words begins an import or class line, behind spaces and tabs. -/
theorem exists_word_of_headLength? {text : Text} {length : Nat}
    (h : headLength? text = some length) :
    ∃ indent, ∃ word ∈ headWords, ∃ rest, text = indent ++ (word ++ rest) ∧
      ∀ d ∈ indent, d = ' ' ∨ d = '\t' := by
  have hSplit : text = text.takeWhile (fun c => c == ' ' || c == '\t') ++
      text.dropWhile (fun c => c == ' ' || c == '\t') := List.takeWhile_append_dropWhile.symm
  have hIndent : ∀ d ∈ text.takeWhile (fun c => c == ' ' || c == '\t'), d = ' ' ∨ d = '\t' := by
    intro d hd
    have hAll := List.all_takeWhile (p := fun c => c == ' ' || c == '\t') (l := text)
    simpa using List.all_eq_true.mp hAll d hd
  unfold headLength? at h
  generalize text.dropWhile (fun c => c == ' ' || c == '\t') = line at h hSplit
  dsimp only at h
  have hWord : ∃ word ∈ headWords, Text.startsWith line word = true := by
    cases hImport : afterWord? importWord line with
    | some rest => exact ⟨_, List.mem_cons_self, startsWith_of_afterWord? hImport⟩
    | none =>
      rw [hImport, Option.none_or] at h
      cases hModifier : classModifiers.find? (Text.startsWith line) with
      | some modifier =>
        have hMem := List.mem_of_find?_eq_some hModifier
        exact ⟨_, List.mem_cons_of_mem _ (List.mem_cons_of_mem _ hMem),
          List.find?_some hModifier⟩
      | none =>
        have hSame : afterModifiers line = line := by
          rw [afterModifiers, hModifier]
        rw [hSame] at h
        cases hClass : afterWord? "class".toList line with
        | some rest =>
          exact ⟨_, List.mem_cons_of_mem _ List.mem_cons_self, startsWith_of_afterWord? hClass⟩
        | none =>
          rw [hClass] at h
          cases h
  obtain ⟨word, hMem, hStarts⟩ := hWord
  obtain ⟨rest, rfl⟩ := List.isPrefixOf_iff_prefix.mp hStarts
  exact ⟨_, word, hMem, rest, hSplit, hIndent⟩

/-- What begins an import or class line is a character that is not blank, behind spaces and
tabs. -/
theorem exists_of_headLength? {text : Text} {length : Nat} (h : headLength? text = some length) :
    ∃ indent c rest, text = indent ++ c :: rest ∧ (∀ d ∈ indent, d = ' ' ∨ d = '\t') ∧
      Text.isBlank c = false := by
  obtain ⟨indent, word, hMem, rest, hText, hIndent⟩ := exists_word_of_headLength? h
  have hFirst := head?_of_mem_headWords hMem
  cases word with
  | nil => cases hFirst
  | cons c word => exact ⟨indent, c, word ++ rest, hText, hIndent, by simpa using hFirst⟩

theorem headLength?_of_mem_headsFrom {skip position place : Nat} {atLineStart : Bool}
    {text : Text} (h : place ∈ headsFrom skip atLineStart position text) :
    position ≤ place ∧ ∃ length, headLength? (text.drop (place - position)) = some length := by
  induction text generalizing skip position atLineStart with
  | nil => cases skip <;> cases h
  | cons c rest ih =>
    have hRest {skip : Nat} {atLineStart : Bool}
        (hMem : place ∈ headsFrom skip atLineStart (position + 1) rest) :
        position ≤ place ∧ ∃ length,
          headLength? ((c :: rest).drop (place - position)) = some length := by
      obtain ⟨hPlace, length, hLength⟩ := ih hMem
      have hDrop : place - position = place - (position + 1) + 1 := by omega
      refine ⟨by omega, length, ?_⟩
      rw [hDrop, List.drop_succ_cons]
      exact hLength
    cases skip with
    | succ skip => exact hRest h
    | zero =>
      rw [headsFrom] at h
      split at h
      · rename_i length hLength
        rcases List.mem_cons.mp h with rfl | hMem
        · refine ⟨Nat.le_refl _, length, ?_⟩
          rw [Nat.sub_self, List.drop_zero]
          split at hLength
          · exact hLength
          · cases hLength
        · exact hRest hMem
      · exact hRest h

/-- Import and class lines begin at the beginning of a line. -/
theorem endsLine_of_mem_headsFrom {skip place : Nat} {atLineStart : Bool} {front text : Text}
    (hFront : atLineStart = true → Text.EndsLine front)
    (h : place ∈ headsFrom skip atLineStart front.length text) :
    Text.EndsLine ((front ++ text).take place) := by
  induction text generalizing skip atLineStart front with
  | nil => cases skip <;> cases h
  | cons c rest ih =>
    have hRest {skip : Nat}
        (hMem : place ∈ headsFrom skip (c == '\n') (front.length + 1) rest) :
        Text.EndsLine ((front ++ c :: rest).take place) := by
      have hNext : (c == '\n') = true → Text.EndsLine (front ++ [c]) := by
        intro hc
        rw [eq_of_beq hc]
        exact Text.endsLine_concat front
      have hLength : (front ++ [c]).length = front.length + 1 := by simp
      rw [← hLength] at hMem
      have hTake := ih hNext hMem
      rw [List.append_assoc] at hTake
      exact hTake
    cases skip with
    | succ skip => exact hRest h
    | zero =>
      rw [headsFrom] at h
      split at h
      · rename_i length hLength
        rcases List.mem_cons.mp h with rfl | hMem
        · rw [List.take_left]
          apply hFront
          cases atLineStart with
          | true => rfl
          | false => cases hLength
        · exact hRest hMem
      · exact hRest h

theorem endsLine_of_firstHead? {text : Text} {position : Nat}
    (h : firstHead? text = some position) : Text.EndsLine (text.take position) := by
  have hFront : true = true → Text.EndsLine [] := fun _ => Text.endsLine_nil
  exact endsLine_of_mem_headsFrom hFront (List.mem_of_find?_eq_some h)

theorem exists_of_firstHead? {text : Text} {position : Nat}
    (h : firstHead? text = some position) :
    ∃ indent c rest, text.drop position = indent ++ c :: rest ∧
      (∀ d ∈ indent, d = ' ' ∨ d = '\t') ∧ Text.isBlank c = false := by
  obtain ⟨-, length, hLength⟩ := headLength?_of_mem_headsFrom (List.mem_of_find?_eq_some h)
  exact exists_of_headLength? hLength

/-- An import or class line is the first piece behind its position, and trimming there takes
its indentation off. -/
theorem exists_pieces_of_firstHead? {text : Text} {position : Nat}
    (h : firstHead? text = some position) :
    ∃ line others, Text.pieces (text.drop position) = line :: others ∧
      Text.pieces (Text.trimStart (text.drop position)) = Text.trimStart line :: others := by
  obtain ⟨indent, c, rest, hDrop, hIndent, hc⟩ := exists_of_firstHead? h
  have hBlank : ∀ d ∈ indent, Text.isBlank d = true := by
    intro d hd
    rcases hIndent d hd with rfl | rfl <;> rfl
  have hNewline : '\n' ∉ indent ++ [c] := by
    intro hMem
    rcases List.mem_append.mp hMem with hFront | hLast
    · rcases hIndent '\n' hFront with hEq | hEq <;> cases hEq
    · rw [← List.mem_singleton.mp hLast] at hc
      cases hc
  have hSingle : '\n' ∉ [c] := fun hMem => hNewline (List.mem_append_right _ hMem)
  have hTrim (more : Text) : Text.trimStart (indent ++ c :: more) = c :: more := by
    rw [Text.trimStart_append hBlank, Text.trimStart_eq_self hc]
  obtain ⟨first, others, hRest, hWhole⟩ := Text.exists_pieces_append hNewline rest
  obtain ⟨second, more, hSame, hTrimmed⟩ := Text.exists_pieces_append hSingle rest
  obtain ⟨rfl, rfl⟩ := List.cons.inj (hRest.symm.trans hSame)
  refine ⟨indent ++ [c] ++ first, others, ?_, ?_⟩
  · rw [hDrop, ← hWhole]
    simp
  · rw [hDrop, hTrim, List.append_assoc]
    show Text.pieces ([c] ++ rest) = Text.trimStart (indent ++ c :: first) :: others
    rw [hTrim, hTrimmed]
    rfl

/-! ## Directives -/

/-- The directives among lines, without the blanks around them. -/
def directivesOf (lines : List Text) : List Text := (lines.map Text.trim).filter isImport

/-- The directives of a text, read off its pieces. -/
theorem importsOf_eq (text : Text) : importsOf text = directivesOf text.pieces := by
  have hRow (row : Text) : Text.trim (Text.stripTerminator (row ++ ['\n'])) = Text.trim row := by
    rcases Text.stripTerminator_concat_or row with hSame | hReturn
    · rw [hSame]
    · generalize Text.stripTerminator (row ++ ['\n']) = front at hReturn
      rw [hReturn]
      exact (Text.trim_append_of_isBlankText rfl front).symm
  obtain ⟨rows, last, hPieces, hLines⟩ := Text.exists_lines_eq text
  unfold importsOf directivesOf
  rw [hLines, hPieces, List.map_append, List.map_append, List.filter_append, List.filter_append,
    List.map_map]
  congr 1
  · show (rows.map fun row => Text.trim (Text.stripTerminator (row ++ ['\n']))).filter isImport = _
    rw [List.map_congr_left fun row _ => hRow row]
  · split
    · rename_i hNil
      rw [hNil]
      rfl
    · rfl

/-- A directive: without blanks around it, and on one line. -/
structure IsDirective (directive : Text) : Prop where
  isImport : isImport directive = true
  trim_eq : Text.trim directive = directive
  newline : '\n' ∉ directive

theorem isDirective_of_mem_importsOf {text directive : Text} (h : directive ∈ importsOf text) :
    IsDirective directive := by
  rw [importsOf_eq] at h
  obtain ⟨hMem, hImport⟩ := List.mem_filter.mp h
  obtain ⟨piece, hPiece, rfl⟩ := List.mem_map.mp hMem
  refine ⟨hImport, Text.trim_trim piece, ?_⟩
  intro hNewline
  exact Text.newline_not_mem_of_mem_pieces hPiece (Text.mem_of_mem_trim hNewline)

theorem importsOf_append {front : Text} (h : Text.EndsLine front) (back : Text) :
    importsOf (front ++ back) = importsOf front ++ importsOf back := by
  unfold importsOf
  rw [Text.lines_append h, List.map_append, List.filter_append]

theorem importsOf_blanks_append {blanks : Text} (h : ∀ c ∈ blanks, Text.isBlank c = true)
    (text : Text) : importsOf (blanks ++ text) = importsOf text := by
  induction blanks with
  | nil => rfl
  | cons c rest ih =>
    have hRest := ih fun d hd => h d (List.mem_cons_of_mem _ hd)
    rw [List.cons_append, ← hRest, importsOf_eq, importsOf_eq]
    generalize rest ++ text = text
    by_cases hc : c = '\n'
    · rw [hc]
      show directivesOf (Text.pieces ([] ++ '\n' :: text)) = _
      rw [Text.pieces_newline]
      rfl
    · have hFront : '\n' ∉ [c] := fun hMem => hc (List.mem_singleton.mp hMem).symm
      obtain ⟨first, others, hPieces, hWhole⟩ := Text.exists_pieces_append hFront text
      have hBlank : ∀ d ∈ [c], Text.isBlank d = true := by
        intro d hd
        rw [List.mem_singleton.mp hd]
        exact h c List.mem_cons_self
      have hTrim : Text.trim ([c] ++ first) = Text.trim first := by
        unfold Text.trim
        rw [Text.trimStart_append hBlank]
      show directivesOf (Text.pieces ([c] ++ text)) = _
      rw [hWhole, hPieces]
      unfold directivesOf
      rw [List.map_cons, hTrim]
      rfl

theorem importsOf_append_blanks {blanks : Text} (h : ∀ c ∈ blanks, Text.isBlank c = true)
    (text : Text) : importsOf (text ++ blanks) = importsOf text := by
  induction blanks generalizing text with
  | nil => rw [List.append_nil]
  | cons c rest ih =>
    have hStep : importsOf (text ++ [c]) = importsOf text := by
      obtain ⟨rows, last, hPieces, hText, hLines⟩ := Text.exists_rows text
      have hRows : ∀ row ∈ rows, '\n' ∉ row :=
        fun row hMem => hLines row (List.mem_append_left _ hMem)
      have hLast : '\n' ∉ last := hLines last (List.mem_append_right _ List.mem_cons_self)
      have hWhole : Text.pieces (text ++ [c]) = rows ++ Text.pieces (last ++ [c]) := by
        rw [hText, List.append_assoc, Text.pieces_ofLines_append hRows]
      rw [importsOf_eq, importsOf_eq, hWhole, hPieces]
      by_cases hc : c = '\n'
      · rw [hc, Text.pieces_newline, Text.pieces_of_not_mem hLast]
        simp [directivesOf]
        rfl
      · have hConcat : '\n' ∉ last ++ [c] := by
          intro hMem
          rcases List.mem_append.mp hMem with hIn | hEnd
          · exact hLast hIn
          · exact hc (List.mem_singleton.mp hEnd).symm
        have hBlank : Text.isBlankText [c] = true := by
          show (Text.isBlank c && true) = true
          rw [h c List.mem_cons_self]
          rfl
        rw [Text.pieces_of_not_mem hConcat]
        unfold directivesOf
        rw [List.map_append, List.map_append, List.map_singleton, List.map_singleton,
          Text.trim_append_of_isBlankText hBlank]
    have hAssoc : text ++ c :: rest = text ++ [c] ++ rest := by simp
    rw [hAssoc, ih fun d hd => h d (List.mem_cons_of_mem _ hd), hStep]

theorem importsOf_trim (text : Text) : importsOf (Text.trim text) = importsOf text := by
  obtain ⟨blanks, hEnd, hBlanks⟩ := Text.exists_trimEnd (Text.trimStart text)
  have hStart : ∀ c ∈ text.takeWhile Text.isBlank, Text.isBlank c = true :=
    List.all_eq_true.mp List.all_takeWhile
  calc importsOf (Text.trim text)
    _ = importsOf (Text.trimEnd (Text.trimStart text) ++ blanks) :=
      (importsOf_append_blanks hBlanks _).symm
    _ = importsOf (text.takeWhile Text.isBlank ++ Text.trimStart text) := by
      rw [← hEnd, importsOf_blanks_append hStart]
    _ = importsOf text := by
      unfold Text.trimStart
      rw [List.takeWhile_append_dropWhile]

/-- The directives of a header are directives of its text. -/
theorem mem_importsOf_of_headerOf {text header directive : Text}
    (hHeader : headerOf text = some header)
    (hMem : directive ∈ importsOf header) : directive ∈ importsOf text := by
  unfold headerOf at hHeader
  split at hHeader
  · cases hHeader
  · rename_i position hPosition
    have hSame : Text.trim (text.take position) = header := by
      split at hHeader
      · cases hHeader
      · exact Option.some.inj hHeader
    rw [← hSame, importsOf_trim] at hMem
    rw [← List.take_append_drop position text,
      importsOf_append (endsLine_of_firstHead? hPosition)]
    exact List.mem_append_left _ hMem

@[simp] theorem directivesOf_append (front back : List Text) :
    directivesOf (front ++ back) = directivesOf front ++ directivesOf back := by
  simp [directivesOf]

theorem directivesOf_self {lines : List Text} (h : ∀ line ∈ lines, IsDirective line) :
    directivesOf lines = lines := by
  have hTrim : lines.map Text.trim = lines.map id :=
    List.map_congr_left fun line hMem => (h line hMem).trim_eq
  unfold directivesOf
  rw [hTrim, List.map_id]
  exact List.filter_eq_self.mpr fun line hMem => (h line hMem).isImport

end XdrBindings.Code
