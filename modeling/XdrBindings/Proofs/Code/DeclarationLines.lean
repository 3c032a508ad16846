import Mathlib.Data.List.Induction
import XdrBindings.Proofs.Code.Balance
import XdrBindings.Proofs.Code.Classes
import XdrBindings.Proofs.Code.ClassSources
import XdrBindings.Proofs.Code.RenamedPieces
import XdrBindings.Proofs.Code.Views

/-!
# The lines of declarations

A declaration begins with the line of its keyword, or with the first of the documentation and
annotation lines that stand directly above it.  So it begins behind whatever ends on a line further
up that belongs to no declaration, and where the line break in front of it is code, no comment and
no string is cut: what begins there is code or the whole of a comment or string, and the
declaration is read alone as it is read in its text.

## Main results

* `LineHead.exists_declarationLines` — the lines that a declaration takes.
* `DeclarationLines.lt_start` — what ends above a line that belongs to no declaration.
* `regions_of_breaksInCode`, `isUncut_of_breaksInCode` — reading behind a line break.
* `declarations_whole` — declarations one behind the other, cutting no comment.
-/

namespace XdrBindings.Code

/-! ## Lines above a keyword -/

/-- Lines that belong to the declaration below them, behind a line that does not. -/
theorem exists_attached_lines (rows : List Text) :
    ∃ above taken, rows = above ++ taken ∧ (∀ row ∈ taken, isAttached row = true) ∧
      ∀ row ∈ above.getLast?, isAttached row = false := by
  induction rows using List.reverseRecOn with
  | nil => exact ⟨[], [], rfl, List.forall_mem_nil _, fun row hRow => by cases hRow⟩
  | append_singleton rows row ih =>
    cases hRow : isAttached row with
    | true =>
      obtain ⟨above, taken, rfl, hTaken, hAbove⟩ := ih
      refine ⟨above, taken ++ [row], List.append_assoc .., ?_, hAbove⟩
      intro other hMem
      rcases List.mem_append.mp hMem with hIn | hLast
      · exact hTaken other hIn
      · rw [List.mem_singleton.mp hLast]
        exact hRow
    | false =>
      refine ⟨rows ++ [row], [], (List.append_nil _).symm, List.forall_mem_nil _, ?_⟩
      rw [List.getLast?_concat]
      rintro _ ⟨⟩
      exact hRow

/-- The line that a position is on. -/
theorem exists_line_of_lt {chunks : List Text} {position : Nat}
    (h : position < chunks.flatten.length) :
    ∃ above line below, chunks = above ++ line :: below ∧ above.flatten.length ≤ position ∧
      position < above.flatten.length + line.length := by
  induction chunks generalizing position with
  | nil => cases h
  | cons first rest ih =>
    rw [List.flatten_cons, List.length_append] at h
    by_cases hHere : position < first.length
    · exact ⟨[], first, rest, rfl, Nat.zero_le _, by simpa using hHere⟩
    · obtain ⟨above, line, below, rfl, hStart, hStop⟩ := @ih (position - first.length) (by omega)
      refine ⟨first :: above, line, below, rfl, ?_, ?_⟩
      · rw [List.flatten_cons, List.length_append]
        omega
      · rw [List.flatten_cons, List.length_append]
        omega

/-- `DeclarationLines text position above taken line below` says that `position` is on `line`, and
that the lines `taken` right above it, and no more, belong to a declaration there. -/
structure DeclarationLines (text : Text) (position : Nat) (above taken : List Text) (line : Text)
    (below : List Text) : Prop where
  chunks_eq : text.chunks = above ++ (taken ++ line :: below)
  start_le : (above ++ taken).flatten.length ≤ position
  lt_stop : position < (above ++ taken).flatten.length + line.length
  attached : ∀ row ∈ taken, isAttached row = true
  detached : ∀ row ∈ above.getLast?, isAttached row = false

namespace LineHead

/-- The head of a line by the lines above it. -/
theorem ofPosition_eq {text line : Text} {above below : List Text} {position : Nat}
    (hChunks : text.chunks = above ++ line :: below) (hStart : above.flatten.length ≤ position)
    (hStop : position < above.flatten.length + line.length) :
    ofPosition (ofText text) position = above.foldl next ⟨1, 0, 0⟩ := by
  have hHere : (above.foldl next ⟨1, 0, 0⟩).start = above.flatten.length := by
    rw [start_foldl_next, Nat.zero_add]
  have hAbove : ∀ head ∈ following ⟨1, 0, 0⟩ above, decide (head.start ≤ position) = true := by
    intro head hMem
    have hLe := start_le_of_mem_following hMem
    dsimp only at hLe
    exact decide_eq_true (by omega)
  have hLine : following (above.foldl next ⟨1, 0, 0⟩) (line :: below) =
      above.foldl next ⟨1, 0, 0⟩ :: following ((above.foldl next ⟨1, 0, 0⟩).next line) below := rfl
  have hNext : position < ((above.foldl next ⟨1, 0, 0⟩).next line).start := by
    rw [next, hHere]
    exact hStop
  have hBelow := takeWhile_following_eq_nil hNext below
  unfold ofPosition ofText
  rw [hChunks, following_append, List.takeWhile_append_of_pos hAbove, hLine,
    List.takeWhile_cons_of_pos (by rw [hHere]; exact decide_eq_true hStart), hBelow,
    List.getLast?_concat, Option.getD_some]

theorem declaration_foldl_next_of_attached {rows : List Text}
    (h : ∀ row ∈ rows, isAttached row = true) (head : LineHead) :
    (rows.foldl next head).declaration = head.declaration := by
  induction rows generalizing head with
  | nil => rfl
  | cons row rest ih =>
    obtain ⟨hRow, hRest⟩ := List.forall_mem_cons.mp h
    rw [List.foldl_cons, ih hRest, next, if_pos hRow]

/-- The lines that a declaration takes, with its number and where it begins. -/
theorem exists_declarationLines {text : Text} {position : Nat} (h : position < text.length) :
    ∃ above taken line below, DeclarationLines text position above taken line below ∧
      (ofPosition (ofText text) position).number = (above ++ taken).length + 1 ∧
      (ofPosition (ofText text) position).declaration = above.flatten.length := by
  rw [← Text.chunks_flatten text] at h
  obtain ⟨rows, line, below, hChunks, hStart, hStop⟩ := exists_line_of_lt h
  obtain ⟨above, taken, rfl, hTaken, hAbove⟩ := exists_attached_lines rows
  refine ⟨above, taken, line, below, ⟨?_, hStart, hStop, hTaken, hAbove⟩, ?_, ?_⟩
  · rw [hChunks, List.append_assoc]
  · rw [ofPosition_eq hChunks hStart hStop, number_foldl_next, Nat.add_comm]
  · rw [ofPosition_eq hChunks hStart hStop, List.foldl_append,
      declaration_foldl_next_of_attached hTaken, declaration_foldl_next_of_detached hAbove,
      start_foldl_next, Nat.zero_add]

theorem length_flatten_le_of_prefix {front chunks : List Text} (h : front <+: chunks) :
    front.flatten.length ≤ chunks.flatten.length := by
  obtain ⟨back, rfl⟩ := h
  rw [List.flatten_append, List.length_append]
  exact Nat.le_add_right _ _

/-- A position is in front of a line of a text if its line is. -/
theorem lt_flatten_iff {text : Text} {front back : List Text}
    (hChunks : text.chunks = front ++ back) {position : Nat} (h : position < text.length) :
    position < front.flatten.length ↔ text.lineOf position ≤ front.length := by
  obtain ⟨above, taken, line, below, hLines, hNumber, -⟩ := exists_declarationLines h
  rw [number_ofPosition h] at hNumber
  have hStart := hLines.start_le
  have hStop := hLines.lt_stop
  have hOther := hLines.chunks_eq
  rw [hChunks, ← List.append_assoc] at hOther
  rw [hNumber]
  constructor
  · intro hLt
    by_contra hNot
    have hPrefix : front <+: above ++ taken :=
      List.prefix_of_prefix_length_le ⟨back, hOther⟩ (List.prefix_append _ _) (by omega)
    have hLength := length_flatten_le_of_prefix hPrefix
    omega
  · intro hLe
    have hPrefix : above ++ taken ++ [line] <+: front := by
      refine List.prefix_of_prefix_length_le ⟨below, ?_⟩ ⟨back, hOther⟩ ?_
      · simp
      · rw [List.length_append, List.length_singleton]
        omega
    have hLength := length_flatten_le_of_prefix hPrefix
    rw [List.flatten_append, List.flatten_singleton, List.length_append] at hLength
    omega

end LineHead

/-! ## What is set off -/

/-- Whether declarations are on lines apart: one of the lines from the one that the first closes on
to the one above the keyword of the other is neither documentation nor an annotation. -/
def IsSetOff (text : Text) (decl later : ClassDecl) : Prop :=
  ∃ row ∈ (text.chunks.take (later.line - 1)).drop (text.lineOf decl.closing - 1),
    isAttached row = false

instance (text : Text) (decl later : ClassDecl) : Decidable (IsSetOff text decl later) :=
  inferInstanceAs (Decidable (∃ row ∈ _, _))

/-- What ends on or above a line that belongs to no declaration ends in front of the lines that
are taken. -/
theorem DeclarationLines.lt_start {text line row : Text} {position closing : Nat}
    {above taken below : List Text} (h : DeclarationLines text position above taken line below)
    (hClosing : closing < text.length)
    (hRow : row ∈ (above ++ taken).drop (text.lineOf closing - 1))
    (hDetached : isAttached row = false) : closing < above.flatten.length := by
  have hLine : text.lineOf closing - 1 < above.length := by
    by_contra hNot
    rw [List.drop_append, List.drop_eq_nil_of_le (by omega), List.nil_append] at hRow
    rw [h.attached row (List.mem_of_mem_drop hRow)] at hDetached
    cases hDetached
  obtain ⟨first, second, other, rest, hOther, hNumber, -⟩ :=
    LineHead.exists_declarationLines hClosing
  rw [LineHead.number_ofPosition hClosing] at hNumber
  -- the line that it ends on is one of those above
  have hPrefix : first ++ second ++ [other] <+: above := by
    have hFirst : first ++ second ++ [other] <+: text.chunks := by
      refine ⟨rest, ?_⟩
      rw [hOther.chunks_eq]
      simp
    refine List.prefix_of_prefix_length_le hFirst ⟨_, h.chunks_eq.symm⟩ ?_
    rw [List.length_append, List.length_singleton]
    omega
  obtain ⟨more, rfl⟩ := hPrefix
  have hStop := hOther.lt_stop
  rw [List.flatten_append, List.flatten_append, List.flatten_singleton, List.length_append,
    List.length_append]
  omega

/-! ## Reading behind a line break -/

/-- Whether the line break in front of a position is code, or nothing stands in front of it. -/
def BreaksInCode (text : Text) (position : Nat) : Prop :=
  position = 0 ∨ regionAt text (position - 1) = .code

instance (text : Text) (position : Nat) : Decidable (BreaksInCode text position) :=
  inferInstanceAs (Decidable (_ ∨ _))

/-- Whether a position is code or the first character of a comment or string. -/
def IsUncut (text : Text) (position : Nat) : Prop :=
  regionAt text position = .code ∨ ∃ front piece back,
    IsSegmentation text (front ++ piece :: back) ∧
    (Piece.joined front).length = position ∧ piece.region ≠ .code

theorem Reader.holdsNoCode_after {reader : Reader} (h : reader.HoldsNoCode) (text : Text) :
    (reader.after text).HoldsNoCode := by
  induction text generalizing reader with
  | nil => exact h
  | cons c rest ih => exact ih (holdsNoCode_step h c rest)

/-- A reader begins anew behind a line break that is code. -/
theorem Reader.step_newline {reader : Reader} (hHolds : reader.HoldsNoCode) {rest : Text}
    (hCode : (reader.step '\n' rest).2 = .code) : (reader.step '\n' rest).1 = start := by
  rw [step_of_code_eq hHolds hCode, step_inCode _ rfl, Behind.step_of_not_isNameChar _ rfl]
  rfl

/-- Behind a line break that is code a text is read as it is alone. -/
theorem regions_append_line {front back : Text}
    (hCode : regionAt (front ++ '\n' :: back) front.length = .code) :
    regions (front ++ '\n' :: back) = regions (front ++ ['\n']) ++ regions back := by
  have hCut : Cut front ('\n' :: back) := cut_of_head rfl
  have hHere : ((Reader.start.after front).step '\n' back).2 = .code := by
    have hLt : front.length < (front ++ '\n' :: back).length := by simp
    have hRegion := regionAt_of_lt hLt
    rw [hCode, regions, Reader.regionsFrom_append _ hCut,
      List.getElem?_append_right (by simp), Reader.length_regionsFrom, Nat.sub_self] at hRegion
    exact Option.some.inj hRegion
  have hAfter : Reader.start.after (front ++ ['\n']) = Reader.start := by
    have hNewline : Cut ([] ++ ['\n']) back := cut_of_last rfl
    have hStep : (Reader.start.after front).step '\n' back =
        (Reader.start.after front).step '\n' [] := Reader.step_append _ hNewline
    have hHolds := Reader.holdsNoCode_after (Reader.holdsNoCode_inCode .nothing) front
    rw [Reader.after_append _ (cut_of_head rfl), Reader.after_cons, Reader.after_nil, ← hStep]
    exact Reader.step_newline hHolds hHere
  have hText : front ++ '\n' :: back = (front ++ ['\n']) ++ back := by simp
  rw [hText, regions, Reader.regionsFrom_append _ (cut_of_last rfl), hAfter]
  rfl

theorem Piece.joined_append (front back : List Piece) :
    Piece.joined (front ++ back) = Piece.joined front ++ Piece.joined back := List.flatMap_append

theorem AllStand.exists_stands {before : Text} {front back : List Piece} {piece : Piece}
    (h : AllStand before (front ++ piece :: back)) :
    ∃ behind, Stands behind piece (Piece.joined back) := by
  induction front generalizing before with
  | nil =>
    cases h with
    | cons hPiece _ => exact ⟨_, hPiece⟩
  | cons first front ih =>
    cases h with
    | cons _ hRest => exact ih hRest

section

variable {text : Text} {front back : List Piece} {piece : Piece}
  (h : IsSegmentation text (front ++ piece :: back))

include h

theorem regionAt_of_isSegmentation : regionAt text (Piece.joined front).length = piece.region := by
  obtain ⟨behind, hStands⟩ := h.stand.exists_stands
  obtain ⟨c, rest, hPiece⟩ := List.exists_cons_of_ne_nil hStands.text_ne_nil
  have hLength : (Piece.regions front).length = (Piece.joined front).length := by
    simp [Piece.regions, Piece.joined, List.length_flatMap]
  have hRegions : Piece.regions (front ++ piece :: back) =
      Piece.regions front ++ piece.region :: (List.replicate rest.length piece.region ++
        Piece.regions back) := by
    rw [Piece.regions, List.flatMap_append]
    show Piece.regions front ++ Piece.regions (piece :: back) = _
    rw [Piece.regions_cons, hPiece, List.length_cons, List.replicate_succ, List.cons_append]
  rw [regionAt, regions_eq_of_isSegmentation h, hRegions,
    List.getElem?_append_right (by omega), hLength, Nat.sub_self]
  rfl

/-- What begins a piece is not cut. -/
theorem isUncut_of_isSegmentation : IsUncut text (Piece.joined front).length := by
  by_cases hCode : piece.region = .code
  · exact .inl ((regionAt_of_isSegmentation h).trans hCode)
  · exact .inr ⟨front, piece, back, h, rfl, hCode⟩

end

/-- Nothing is cut behind a line break that is code. -/
theorem isUncut_append_line {front back : Text}
    (hCode : regionAt (front ++ '\n' :: back) front.length = .code) (hBack : back ≠ []) :
    IsUncut (front ++ '\n' :: back) (front.length + 1) := by
  obtain ⟨pieces, hPieces⟩ := exists_isSegmentation (front ++ '\n' :: back)
  have hLt : front.length < (front ++ '\n' :: back).length := by simp
  have hWithin : front.length < (Piece.joined pieces).length := by
    rw [hPieces.joined]
    exact hLt
  obtain ⟨first, piece, last, rfl, hStart, hStop, hRegion⟩ := exists_piece_of_lt hWithin
  rw [← regions_eq_of_isSegmentation hPieces, regionAt_of_lt hLt, hCode] at hRegion
  -- the line break is a piece of its own, and the next piece begins behind it
  obtain ⟨behind, hStands⟩ := hPieces.stand.exists_stands
  obtain ⟨c, rfl⟩ := hStands.eq_ofCode (Option.some.inj hRegion).symm
  have hOne : (Piece.ofCode c).text.length = 1 := rfl
  have hFirst : (Piece.joined first).length = front.length := by omega
  have hLength := congrArg List.length hPieces.joined
  rw [Piece.joined_append, Piece.joined_cons, List.length_append, List.length_append, hOne, hFirst,
    List.length_append, List.length_cons] at hLength
  obtain ⟨next, others, rfl⟩ : ∃ next others, last = next :: others := by
    refine List.exists_cons_of_ne_nil ?_
    rintro rfl
    have hSome := List.length_pos_iff.mpr hBack
    simp only [Piece.joined, List.flatMap_nil, List.length_nil] at hLength
    omega
  have hNext : (Piece.joined (first ++ [Piece.ofCode c])).length = front.length + 1 := by
    rw [Piece.joined_append, List.length_append, hFirst]
    rfl
  have hSame : first ++ Piece.ofCode c :: next :: others =
      (first ++ [Piece.ofCode c]) ++ next :: others := by simp
  rw [hSame] at hPieces
  rw [← hNext]
  exact isUncut_of_isSegmentation hPieces

section

variable {text : Text} {position : Nat} (hLine : Text.EndsLine (text.take position))
  (hLt : position < text.length) (h : BreaksInCode text position)

include hLine hLt h

/-- The line break in front of a position, if there is one. -/
theorem eq_zero_or_of_breaksInCode : position = 0 ∨ ∃ front back, text = front ++ '\n' :: back ∧
    front.length + 1 = position ∧ regionAt text front.length = .code := by
  rcases h with hZero | hCode
  · exact .inl hZero
  · rcases Nat.eq_zero_or_pos position with hZero | hPositive
    · exact .inl hZero
    · right
      have hSome : text.take position ≠ [] := by
        rw [← List.length_pos_iff, List.length_take]
        omega
      obtain ⟨front, hFront⟩ := hLine.exists_concat hSome
      have hLength := congrArg List.length hFront
      rw [List.length_take, List.length_append, List.length_singleton] at hLength
      have hText : text = front ++ '\n' :: text.drop position := by
        conv_lhs => rw [← List.take_append_drop position text, hFront]
        simp
      have hBefore : position - 1 = front.length := by omega
      rw [hBefore] at hCode
      exact ⟨front, _, hText, by omega, hCode⟩

theorem isUncut_of_breaksInCode : IsUncut text position := by
  rcases eq_zero_or_of_breaksInCode hLine hLt h with rfl | ⟨front, back, rfl, rfl, hCode⟩
  · obtain ⟨pieces, hPieces⟩ := exists_isSegmentation text
    cases pieces with
    | nil =>
      rw [← hPieces.joined] at hLt
      cases hLt
    | cons piece rest =>
      rw [← List.nil_append (piece :: rest)] at hPieces
      exact isUncut_of_isSegmentation hPieces
  · refine isUncut_append_line hCode ?_
    rintro rfl
    simp at hLt

theorem regions_drop_of_breaksInCode :
    (regions text).drop position = regions (text.drop position) := by
  rcases eq_zero_or_of_breaksInCode hLine hLt h with rfl | ⟨front, back, rfl, rfl, hCode⟩
  · rfl
  · have hFront : (front ++ ['\n']).length = front.length + 1 := by simp
    have hText : front ++ '\n' :: back = (front ++ ['\n']) ++ back := by simp
    rw [regions_append_line hCode, List.drop_left' (by rw [length_regions, hFront]), hText,
      List.drop_left' hFront]

end

/-! ## Declarations -/

/-- Whether a declaration is on lines of its own in front of its block, and is read alone as it is
read in its text unless it begins within a comment or string. -/
structure IsIntact (text : Text) (decl : ClassDecl) : Prop where
  beginsLine : Text.EndsLine (text.take decl.start)
  start_lt : decl.start < decl.opening
  opening_lt : decl.opening < decl.closing
  closing_lt : decl.closing < text.length
  uncut : BreaksInCode text decl.start → IsUncut text decl.start
  regions_eq : BreaksInCode text decl.start →
    regions (decl.source text) = ((regions text).take (decl.closing + 1)).drop decl.start

/-- Where the lines end that a declaration begins behind. -/
theorem endsLine_take_start {text line : Text} {position : Nat} {above taken below : List Text}
    (h : DeclarationLines text position above taken line below) :
    Text.EndsLine (text.take above.flatten.length) := by
  have hText : text = above.flatten ++ (taken ++ line :: below).flatten := by
    rw [← List.flatten_append, ← h.chunks_eq, Text.chunks_flatten]
  have hTake : text.take above.flatten.length = above.flatten := by
    conv_lhs => rw [hText]
    exact List.take_left
  rw [hTake]
  exact Text.endsLine_of_chunks_eq h.chunks_eq (by simp)

/-- A declaration is read alone as it is read in its text. -/
theorem regions_source {text : Text} {decl : ClassDecl}
    (hLine : Text.EndsLine (text.take decl.start)) (hStart : decl.start < decl.closing)
    (hBrace : text[decl.closing]? = some '}') (h : BreaksInCode text decl.start) :
    regions (decl.source text) = ((regions text).take (decl.closing + 1)).drop decl.start := by
  have hLt : decl.closing < text.length := (List.getElem?_eq_some_iff.mp hBrace).1
  have hSource : decl.source text =
      (text.drop decl.start).take (decl.closing - decl.start) ++ ['}'] := by
    have hStop : decl.closing + 1 - decl.start = decl.closing - decl.start + 1 := by omega
    have hHere : decl.start + (decl.closing - decl.start) = decl.closing := by omega
    rw [ClassDecl.source, Text.slice, hStop, List.take_add_one, List.getElem?_drop, hHere, hBrace]
    rfl
  obtain ⟨back, hBack⟩ : ∃ back, text.drop decl.start = decl.source text ++ back :=
    ⟨_, (List.take_append_drop (decl.closing + 1 - decl.start) _).symm⟩
  -- a brace is read without a look at what follows
  have hCut : Cut (decl.source text) back := by
    rw [hSource]
    exact cut_of_last rfl
  have hRegions : regions (decl.source text ++ back) = regions (decl.source text) ++ _ :=
    Reader.regionsFrom_append _ hCut
  have hLength : (regions (decl.source text)).length = decl.closing + 1 - decl.start := by
    rw [length_regions, ClassDecl.source, Text.slice, List.length_take, List.length_drop]
    omega
  rw [List.drop_take, regions_drop_of_breaksInCode hLine (by omega) h, hBack, hRegions,
    List.take_left' hLength]

theorem isIntact_of_mem {text : Text} {classes : List ClassDecl} {decl : ClassDecl}
    (hClasses : classesOf text = .ok classes) (hDecl : decl ∈ classes) : IsIntact text decl := by
  obtain ⟨hStart, hBrace⟩ := start_lt_opening hClasses hDecl
  obtain ⟨-, rfl⟩ := classesOf_eq_ok_iff.mp hClasses
  obtain ⟨site, hSite, rfl⟩ := List.mem_map.mp hDecl
  have hOpening : site.opening < site.closing := (matches_of_mem_sitesOf hSite).lt
  have hClosing : site.closing < text.length := closing_lt_of_mem_sitesOf hSite
  have hLine : Text.EndsLine (text.take (site.decl (LineHead.ofText text)).start) := by
    obtain ⟨above, taken, line, below, hLines, -, hAbove⟩ :=
      LineHead.exists_declarationLines (keyword_lt_of_mem_sitesOf hSite)
    have hEnds := endsLine_take_start hLines
    rw [← hAbove] at hEnds
    exact hEnds
  have hStop : (site.decl (LineHead.ofText text)).start < site.closing := hStart.trans hOpening
  exact ⟨hLine, hStart, hOpening, hClosing,
    isUncut_of_breaksInCode hLine (hStop.trans hClosing), regions_source hLine hStop hBrace⟩

/-- Declarations do not overlap where they are on lines apart, and carrying one over cuts no comment
and no string unless it begins within one. -/
theorem declarations_whole {text : Text} {classes : List ClassDecl}
    (h : classesOf text = .ok classes) :
    (∀ decl ∈ classes, IsIntact text decl) ∧
      classes.Pairwise fun decl later => decl.closing < later.opening ∧
        (IsSetOff text decl later → decl.closing < later.start) := by
  refine ⟨fun decl hDecl => isIntact_of_mem h hDecl, ?_⟩
  obtain ⟨-, rfl⟩ := classesOf_eq_ok_iff.mp h
  have hOrder := Walk.sites_pairwise (.outside 0 none) (codeSpots_ascending text)
  rw [List.pairwise_map]
  refine hOrder.imp_of_mem fun {site later} hSite hLater hApart => ⟨hApart, ?_⟩
  obtain ⟨above, taken, line, below, hLines, hNumber, hAbove⟩ :=
    LineHead.exists_declarationLines (keyword_lt_of_mem_sitesOf hLater)
  rintro ⟨row, hRow, hDetached⟩
  have hTake :
      text.chunks.take ((later.decl (LineHead.ofText text)).line - 1) = above ++ taken := by
    have hLine : (later.decl (LineHead.ofText text)).line = (above ++ taken).length + 1 := hNumber
    rw [hLine, Nat.add_sub_cancel, hLines.chunks_eq, ← List.append_assoc, List.take_left]
  rw [hTake] at hRow
  have hLt := hLines.lt_start (closing_lt_of_mem_sitesOf hSite) hRow hDetached
  rw [← hAbove] at hLt
  exact hLt

/-- Two classes on lines apart, the second one documented and annotated behind a comment that is not
documentation. -/
theorem declarations_whole_of_two :
    classesOf "class A \x7b\n\x7d /* a */\n/// B.\n@old\nclass B \x7b\n\x7d\n".toList =
        .ok [⟨"A".toList, 0, 8, 10, 1⟩, ⟨"B".toList, 20, 40, 42, 5⟩] ∧
      IsIntact "class A \x7b\n\x7d /* a */\n/// B.\n@old\nclass B \x7b\n\x7d\n".toList
        ⟨"B".toList, 20, 40, 42, 5⟩ ∧
      IsUncut "class A \x7b\n\x7d /* a */\n/// B.\n@old\nclass B \x7b\n\x7d\n".toList 20 ∧
      10 < 20 := by
  have hClasses :
      classesOf "class A \x7b\n\x7d /* a */\n/// B.\n@old\nclass B \x7b\n\x7d\n".toList =
        .ok [⟨"A".toList, 0, 8, 10, 1⟩, ⟨"B".toList, 20, 40, 42, 5⟩] := by
    decide +kernel
  obtain ⟨hWhole, hApart⟩ := declarations_whole hClasses
  have hSecond := hWhole _ (List.mem_cons_of_mem _ (List.mem_singleton_self _))
  obtain ⟨-, hSetOff⟩ := (List.pairwise_cons.mp hApart).1 _ (List.mem_singleton_self _)
  exact ⟨hClasses, hSecond, hSecond.uncut (by decide +kernel), hSetOff (by decide +kernel)⟩

/-- A documented class begins within a comment. -/
theorem documented_class_starts_in_comment :
    classesOf "/// Docs.\nclass A \x7b\n\x7d\n".toList = .ok [⟨"A".toList, 0, 18, 20, 2⟩] ∧
      regionAt "/// Docs.\nclass A \x7b\n\x7d\n".toList 0 ≠ .code := by
  decide +kernel

end XdrBindings.Code
