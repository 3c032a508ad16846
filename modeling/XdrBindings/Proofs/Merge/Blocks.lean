import XdrBindings.Merge.Imports
import XdrBindings.Proofs.Code.Directives

/-!
# Blocks of lines through imports and header

A block of whole lines that stands behind the import lines of a text stays where it is when
the imports are reconciled: what is written anew ends with a newline.  A header replaces
what stands before the first import or class line, so a block behind that line stays too.

## Main results

* `Text.Holds` — a block of lines in a text, with more than blanks behind it.
* `exists_putImports`, `exists_withHeader` — the two last steps of a merge.
-/

namespace XdrBindings

/-! ## Blocks -/

namespace Text

/-- A block of lines stands in a text, with more than blanks behind it. -/
def Holds (text block : Text) : Prop :=
  ∃ front back, text = front ++ (block ++ back) ∧ EndsLine front ∧ isBlankText back = false

theorem Holds.trimEnd_append {text block : Text} (h : Holds text block) (more : Text) :
    Holds (trimEnd text ++ more) block := by
  obtain ⟨front, back, rfl, hFront, hBack⟩ := h
  refine ⟨front, trimEnd back ++ more, ?_, hFront, ?_⟩
  · rw [← List.append_assoc front, Text.trimEnd_append hBack, List.append_assoc, List.append_assoc]
  · rw [isBlankText_append, isBlankText_trimEnd hBack, Bool.false_and]

end Text

/-! ## The two last steps of a merge -/

namespace Merge

open Code

/-- Reconciling the imports rewrites lines in front of a place only, if no import line stands
behind it and, where there is none at all, the first class line does not either. -/
theorem exists_putImports {front rest : Text} (hFront : Text.EndsLine front)
    (hRest : ∀ line ∈ rest.pieces, isImportLine line = false)
    (hHead : (front ++ rest).pieces.any isImportLine = false →
      ∀ position, firstHead? (front ++ rest) = some position → position ≤ front.length)
    (imports : List Text) :
    ∃ other, putImports imports (front ++ rest) = other ++ rest ∧ Text.EndsLine other := by
  have hPieces : Text.pieces (front ++ rest) = Text.rows front ++ Text.pieces rest :=
    Text.pieces_append hFront
  have hNil := Text.pieces_ne_nil rest
  have hWritten (rows : List Text) :
      Text.ofPieces (rows ++ rest.pieces) = Text.ofLines rows ++ rest := by
    rw [Text.ofPieces_append rows hNil, Text.ofPieces_pieces]
    rfl
  unfold putImports
  dsimp only
  split
  · -- all lines of the rest are kept behind the last import line
    have hAll : ∀ line ∈ rest.pieces.reverse, (!isImportLine line) = true := by
      intro line hMem
      rw [hRest line (List.mem_reverse.mp hMem)]
      rfl
    rw [hPieces, List.reverse_append, List.takeWhile_append_of_pos hAll, List.reverse_append,
      List.reverse_reverse, ← List.append_assoc, hWritten]
    exact ⟨_, rfl, Text.endsLine_ofLines _⟩
  · rename_i hNone
    cases hFirst : firstHead? (front ++ rest) with
    | none => exact ⟨front, rfl, hFront⟩
    | some position =>
      have hPosition := hHead (by simpa using hNone) position hFirst
      have hIndex : (front ++ rest).lineOf position - 1 ≤ (Text.rows front).length := by
        unfold Text.lineOf
        rw [Nat.add_sub_cancel, List.take_append_of_le_length hPosition, Text.length_rows]
        exact (List.take_sublist position front).count_le '\n'
      rw [hPieces]
      dsimp only
      rw [List.drop_append_of_le_length hIndex, ← List.append_assoc, hWritten]
      exact ⟨_, rfl, Text.endsLine_ofLines _⟩

/-- A header replaces text in front of a place only, if the first import or class line stands
in front of it. -/
theorem exists_withHeader {front rest : Text} (hFront : Text.EndsLine front)
    (hHead : ∀ position, firstHead? (front ++ rest) = some position → position < front.length)
    (header : Text) :
    ∃ other, withHeader header (front ++ rest) = other ++ rest ∧ Text.EndsLine other := by
  unfold withHeader
  cases hFirst : firstHead? (front ++ rest) with
  | none => exact ⟨front, rfl, hFront⟩
  | some position =>
    have hPosition := hHead position hFirst
    obtain ⟨indent, c, behind, hDrop, hIndent, hc⟩ := exists_of_firstHead? hFirst
    dsimp only
    rw [List.drop_append_of_le_length (Nat.le_of_lt hPosition)] at hDrop ⊢
    have hKept : Text.EndsLine (front.drop position) := by
      have hWhole := List.take_append_drop position front
      rw [← hWhole] at hFront
      exact hFront.of_append
    have hSome : front.drop position ≠ [] := by
      intro hNil
      have hLength := congrArg List.length hNil
      rw [List.length_drop, List.length_nil] at hLength
      omega
    generalize front.drop position = kept at hDrop hKept hSome
    have hIndentBlank : ∀ d ∈ indent, Text.isBlank d = true := by
      intro d hd
      rcases hIndent d hd with rfl | rfl <;> rfl
    -- the line that the position is on ends within the part that is kept
    have hSplit : ∃ more, kept = indent ++ c :: more := by
      rcases List.append_eq_append_iff.mp hDrop with ⟨more, hIndentEq, -⟩ | ⟨more, hKeptEq, hRest⟩
      · exfalso
        obtain ⟨line, rfl⟩ := hKept.exists_concat hSome
        have hMem : '\n' ∈ indent := by rw [hIndentEq]; simp
        rcases hIndent '\n' hMem with hEq | hEq <;> cases hEq
      · cases more with
        | nil =>
          exfalso
          rw [List.append_nil] at hKeptEq
          obtain ⟨line, rfl⟩ := hKept.exists_concat hSome
          have hMem : '\n' ∈ indent := by rw [← hKeptEq]; simp
          rcases hIndent '\n' hMem with hEq | hEq <;> cases hEq
        | cons d more =>
          obtain ⟨rfl, -⟩ := List.cons.inj hRest
          exact ⟨more, hKeptEq⟩
    obtain ⟨more, rfl⟩ := hSplit
    have hTrim : Text.trimStart (indent ++ c :: more ++ rest) = c :: more ++ rest := by
      unfold Text.trimStart
      rw [List.append_assoc, List.dropWhile_append_of_pos hIndentBlank, List.cons_append,
        List.dropWhile_cons_of_neg (by simp [hc])]
    refine ⟨header ++ ['\n', '\n'] ++ c :: more, ?_, ?_⟩
    · rw [hTrim]
      simp
    · have hLine : Text.EndsLine (c :: more) := hKept.of_append
      have hHeader : header ++ ['\n', '\n'] = header ++ ['\n'] ++ ['\n'] := by simp
      rw [hHeader]
      exact (Text.endsLine_concat (header ++ ['\n'])).append hLine

end Merge

end XdrBindings
