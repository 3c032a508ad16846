import XdrBindings.Proofs.Code.Segmentation

/-!
# The views of a text

Where a text is code can be asked in three ways: by the region of a place, by the list of the
characters that are code, and by the ranges that they make up.  All three are read off the regions
of the text, and those are known from its segmentation.  So the three agree, and a place that is no
code has the region of the comment or string around it, delimiters included.

A text may also be the list of its bytes (`Text.ofBytes`); its positions are then byte offsets.

## Main results

* `mem_runs_iff`, `runs_pairwise` — the runs of ascending positions.
* `exists_piece_of_lt` — the piece that a place belongs to.
* `views_agree` — the region of a place, the characters that are code, and their ranges.
-/

namespace XdrBindings.Code

/-! ## Runs of ascending positions -/

/-- The positions are those that lie in a run. -/
theorem mem_runs_iff {positions : List Nat} {position : Nat} :
    position ∈ positions ↔ ∃ run ∈ runs positions, run.1 ≤ position ∧ position < run.2 := by
  have hFlat : position ∈ positions ↔ position ∈ (runs positions).flatMap
      fun run => List.range' run.1 (run.2 - run.1) := by rw [runs_flatten]
  rw [hFlat, List.mem_flatMap]
  constructor
  · rintro ⟨run, hRun, hPosition⟩
    obtain ⟨hStart, hStop⟩ := List.mem_range'_1.mp hPosition
    exact ⟨run, hRun, hStart, by omega⟩
  · rintro ⟨run, hRun, hStart, hStop⟩
    exact ⟨run, hRun, List.mem_range'_1.mpr ⟨hStart, by omega⟩⟩

/-- Between two runs of ascending positions there is a place that is in none. -/
theorem runs_pairwise {positions : List Nat} (h : positions.Pairwise (· < ·)) :
    (runs positions).Pairwise fun first second => first.2 < second.1 := by
  induction positions with
  | nil => exact .nil
  | cons position rest ih =>
    obtain ⟨hFirst, hRest⟩ := List.pairwise_cons.mp h
    have hApart := ih hRest
    have hBehind : ∀ run ∈ runs rest, position < run.1 := fun run hRun =>
      hFirst run.1 (mem_runs_iff.mpr ⟨run, hRun, Nat.le_refl _, runs_lt hRun⟩)
    unfold runs
    split
    · exact List.pairwise_singleton _ _
    · rename_i start stop others hRuns
      rw [hRuns] at hApart hBehind
      obtain ⟨hNext, hOthers⟩ := List.pairwise_cons.mp hApart
      have hStart : position < start := hBehind (start, stop) List.mem_cons_self
      split
      · exact List.pairwise_cons.mpr ⟨hNext, hOthers⟩
      · -- the position is a run of its own, with a gap behind it
        refine List.pairwise_cons.mpr ⟨List.forall_mem_cons.mpr ⟨?_, fun run hRun => ?_⟩, hApart⟩
        · show position + 1 < start
          omega
        · have hStop : start < stop := runs_lt (hRuns ▸ List.mem_cons_self)
          have hRun := hNext run hRun
          dsimp only at hRun ⊢
          omega

/-! ## The region of a place -/

/-- Every place of a text lies in one of its pieces. -/
theorem exists_piece_of_lt {pieces : List Piece} {position : Nat}
    (h : position < (Piece.joined pieces).length) :
    ∃ front piece back, pieces = front ++ piece :: back ∧
      (Piece.joined front).length ≤ position ∧
      position < (Piece.joined front).length + piece.text.length ∧
      (Piece.regions pieces)[position]? = some piece.region := by
  induction pieces generalizing position with
  | nil => cases h
  | cons first rest ih =>
    rw [Piece.joined_cons, List.length_append] at h
    by_cases hHere : position < first.text.length
    · refine ⟨[], first, rest, rfl, Nat.zero_le _, by simpa [Piece.joined] using hHere, ?_⟩
      rw [Piece.regions_cons, List.getElem?_append_left (by simpa using hHere),
        List.getElem?_replicate, if_pos hHere]
    · have hRest : position - first.text.length < (Piece.joined rest).length := by omega
      obtain ⟨front, piece, back, rfl, hStart, hStop, hRegion⟩ := ih hRest
      refine ⟨first :: front, piece, back, rfl, ?_, ?_, ?_⟩
      · rw [Piece.joined_cons, List.length_append]
        omega
      · rw [Piece.joined_cons, List.length_append]
        omega
      · rw [Piece.regions_cons, List.getElem?_append_right (by simpa using hHere),
          List.length_replicate, hRegion]

theorem regionAt_of_lt {text : Text} {position : Nat} (h : position < text.length) :
    (regions text)[position]? = some (regionAt text position) := by
  have hLength : position < (regions text).length := by simpa using h
  rw [regionAt, List.getElem?_eq_getElem hLength, Option.getD_some]

theorem regionAt_of_length_le {text : Text} {position : Nat} (h : text.length ≤ position) :
    regionAt text position = (readerAtEnd text 0).mode.region := by
  rw [regionAt, List.getElem?_eq_none (by simpa using h)]
  rfl

theorem regionAt_eq_code_iff {text : Text} {position : Nat} (h : position < text.length) :
    regionAt text position = .code ↔ ∃ c, (position, c) ∈ codeUnits text := by
  simp only [mem_codeUnits, regionAt_of_lt h, List.getElem?_eq_getElem h, Option.some.injEq]
  exact ⟨fun hRegion => ⟨_, rfl, hRegion⟩, fun ⟨_, _, hRegion⟩ => hRegion⟩

theorem mem_codeRanges_iff {text : Text} {position : Nat} :
    (∃ range ∈ codeRanges text, range.1 ≤ position ∧ position < range.2) ↔
      ∃ c, (position, c) ∈ codeUnits text := by
  rw [codeRanges, ← mem_runs_iff]
  simp

/-! ## Agreement -/

/-- The region of a place is code exactly if the character there is reported as code, which is
exactly if it lies in a range of code; otherwise it is the region of the comment or string of the
segmentation that holds the character.  From the end of the text on it is the region that the
reader ends in.  The ranges hold something each, and follow each other with a gap. -/
theorem views_agree (text : Text) :
    ∃ pieces, (∀ others, IsSegmentation text others ↔ others = pieces) ∧
      (∀ position < text.length,
        (regionAt text position = .code ↔ ∃ c, (position, c) ∈ codeUnits text) ∧
        (regionAt text position = .code ↔
          ∃ range ∈ codeRanges text, range.1 ≤ position ∧ position < range.2) ∧
        ∃ front piece back, pieces = front ++ piece :: back ∧
          (Piece.joined front).length ≤ position ∧
          position < (Piece.joined front).length + piece.text.length ∧
          regionAt text position = piece.region) ∧
      (∀ position, text.length ≤ position →
        regionAt text position = (readerAtEnd text 0).mode.region) ∧
      (∀ range ∈ codeRanges text, range.1 < range.2) ∧
      (codeRanges text).Pairwise fun first second => first.2 < second.1 := by
  obtain ⟨pieces, hPieces⟩ := exists_isSegmentation text
  refine ⟨pieces, fun others => ⟨fun h => h.unique hPieces, fun h => h ▸ hPieces⟩,
    fun position hPosition => ⟨?_, ?_, ?_⟩, fun position h => regionAt_of_length_le h,
    fun range hRange => runs_lt hRange, ?_⟩
  · exact regionAt_eq_code_iff hPosition
  · exact (regionAt_eq_code_iff hPosition).trans mem_codeRanges_iff.symm
  · have hLength : position < (Piece.joined pieces).length := by rwa [hPieces.joined]
    obtain ⟨front, piece, back, hSplit, hStart, hStop, hRegion⟩ := exists_piece_of_lt hLength
    rw [← regions_eq_of_isSegmentation hPieces, regionAt_of_lt hPosition] at hRegion
    exact ⟨front, piece, back, hSplit, hStart, hStop, Option.some.inj hRegion⟩
  · exact runs_pairwise (List.pairwise_map.mpr (Reader.codeFrom_ascending _ _ _))

end XdrBindings.Code
