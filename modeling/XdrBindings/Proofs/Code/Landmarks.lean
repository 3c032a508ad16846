import XdrBindings.Proofs.Code.Outline

/-!
# The marks of a text with their lines

Which classes a text has, and on which lines they stand, is decided by its marks and the lines
that these stand on.  Both stay where a text is changed within its lines only.

## Main results

* `Reader.map_fst_landmarks` — without their lines, these are the marks.
* `Reader.landmarks_eq` — the line of a mark is that of its place.
-/

namespace XdrBindings.Code

namespace Reader

/-- The marks in a text that begins on a line, with their lines. -/
def landmarks : Reader → Nat → Text → List (Mark × Nat)
  | _, _, [] => []
  | reader, line, c :: rest =>
    (if (reader.step c rest).2 = .code then markAt reader.behind c rest else none).toList.map
        (·, line) ++
      (reader.step c rest).1.landmarks (if c = '\n' then line + 1 else line) rest

/-- Without their lines, these are the marks of the text. -/
theorem map_fst_landmarks (reader : Reader) (line : Nat) (text : Text) :
    (reader.landmarks line text).map Prod.fst = reader.marks text := by
  induction text generalizing reader line with
  | nil => rfl
  | cons c rest ih =>
    rw [landmarks, List.map_append, ih, List.map_map, marks_cons]
    exact congrArg (· ++ _) (List.map_id _)

theorem Alike.landmarks_eq {reader other : Reader} (h : reader.Alike other) (line : Nat)
    (text : Text) : reader.landmarks line text = other.landmarks line text := by
  cases text with
  | nil => rfl
  | cons c rest => rw [landmarks, landmarks, h.step_eq, h.behind]

theorem le_position_of_mem_spotsFrom {reader : Reader} {position : Nat} {text : Text}
    {spot : Spot} (h : spot ∈ reader.spotsFrom position text) : position ≤ spot.position := by
  have hUnit : (spot.position, spot.char) ∈ reader.codeFrom position text := by
    rw [← map_spotsFrom]
    exact List.mem_map_of_mem h
  obtain ⟨index, hPosition, -⟩ := mem_codeFrom.mp hUnit
  exact Nat.le.intro hPosition.symm

/-- The line of a mark is that of its place. -/
theorem landmarks_eq (reader : Reader) (line position : Nat) (text : Text) :
    reader.landmarks line text = (reader.spotsFrom position text).filterMap fun spot =>
      spot.mark?.map (·, line + (text.take (spot.position - position)).count '\n') := by
  induction text generalizing reader line position with
  | nil => rfl
  | cons c rest ih =>
    have hLine : (if c = '\n' then line + 1 else line) = line + [c].count '\n' := by
      by_cases hc : c = '\n' <;> simp [hc]
    have hRest : (reader.step c rest).1.landmarks (if c = '\n' then line + 1 else line) rest =
        ((reader.step c rest).1.spotsFrom (position + 1) rest).filterMap fun spot =>
          spot.mark?.map (·, line + ((c :: rest).take (spot.position - position)).count '\n') := by
      rw [ih _ _ (position + 1), hLine]
      refine List.filterMap_congr fun spot hSpot => ?_
      have hPosition : spot.position - position = spot.position - (position + 1) + 1 := by
        have hLe := le_position_of_mem_spotsFrom hSpot
        omega
      have hTake : (c :: rest).take (spot.position - position) =
          [c] ++ rest.take (spot.position - (position + 1)) := by
        rw [hPosition]
        rfl
      rw [hTake, List.count_append, Nat.add_assoc]
    have hSpots : reader.spotsFrom position (c :: rest) =
        if (reader.step c rest).2 = .code then
          ⟨position, reader.behind, c, rest⟩ ::
            (reader.step c rest).1.spotsFrom (position + 1) rest
        else (reader.step c rest).1.spotsFrom (position + 1) rest := rfl
    rw [landmarks, hRest, hSpots]
    split
    · have hMark : Spot.mark? ⟨position, reader.behind, c, rest⟩ =
          markAt reader.behind c rest := by
        have hShift := Spot.mark?_shift position ⟨0, reader.behind, c, rest⟩
        rwa [Spot.shift, Nat.zero_add] at hShift
      rw [List.filterMap_cons, hMark, Nat.sub_self]
      cases markAt reader.behind c rest <;> rfl
    · rfl

end Reader

end XdrBindings.Code
