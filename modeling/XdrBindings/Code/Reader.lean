import XdrBindings.Code.Region

/-!
# Reading a text as code

The reader takes one character after the other, in the mode it is in, and gives each its
region. From that come the views of a whole text: the region of a place, the characters
that are code, and the ranges they make up. Reading may also begin within a text, at a
place that is taken to be code.

## Main statements

* `length_regions`: every character gets a region.
* `advance_add`, `regionsFrom_drop`: reading on from a place in the text is reading the
  text behind that place with the reader that got there.
* `mem_codeFrom`, `codeFrom_ascending`: the characters that are code are those whose
  region is code, in ascending order.
* `map_codeSpots`: the same characters are listed with and without their surroundings.
* `runs_lt`, `runs_flatten`: runs are not empty and hold the positions that they are
  made of.
-/

namespace XdrBindings.Code

/-! ## Reading -/

/-- The state of the reader between two characters. -/
structure Reader where
  behind : Behind
  mode : Mode
  /-- How many characters are held. -/
  held : Nat
  /-- The region of the held characters. -/
  heldAs : Region
  deriving DecidableEq, Repr

/-- A character of code where it stands: its position, what counts behind it, and the text
that follows it. -/
structure Spot where
  position : Nat
  behind : Behind
  char : Char
  rest : Text
  deriving DecidableEq, Repr

/-- The text that begins with the character. -/
def Spot.ahead (spot : Spot) : Text := spot.char :: spot.rest

namespace Reader

/-- A reader in code behind what counts as `behind`. -/
def inCode (behind : Behind) : Reader := ⟨behind, .code, 0, .code⟩

/-- The reader at the beginning of a text. -/
def start : Reader := inCode .nothing

/-- The reader at a position of a text that is taken to be code. -/
def startingAt (text : Text) (position : Nat) : Reader :=
  inCode (Behind.ofText (text.take position))

/-- Takes one character, with the text behind it in view, and gives its region. -/
def step (reader : Reader) (c : Char) (rest : Text) : Reader × Region :=
  match reader.held with
  | held + 1 =>
    (⟨reader.behind.step c, reader.mode, held, reader.heldAs⟩, reader.heldAs)
  | 0 =>
    let (mode, held, region) := reader.mode.read reader.behind c rest
    (⟨reader.behind.step c, mode, held, region⟩, region)

/-- The region of each character of a text. -/
def regionsFrom (reader : Reader) : Text → List Region
  | [] => []
  | c :: rest =>
    let (next, region) := reader.step c rest
    region :: next.regionsFrom rest

/-- The reader behind the first `count` characters of a text. -/
def advance (reader : Reader) : (count : Nat) → Text → Reader
  | 0, _ => reader
  | _ + 1, [] => reader
  | count + 1, c :: rest => (reader.step c rest).1.advance count rest

@[simp] theorem length_regionsFrom (reader : Reader) (text : Text) :
    (reader.regionsFrom text).length = text.length := by
  induction text generalizing reader with
  | nil => rfl
  | cons c rest ih => simp [regionsFrom, ih]

theorem advance_add (reader : Reader) (first second : Nat) (text : Text) :
    reader.advance (first + second) text =
      (reader.advance first text).advance second (text.drop first) := by
  induction first generalizing reader text with
  | zero => simp [advance]
  | succ count ih =>
    rw [Nat.add_right_comm]
    cases text with
    | nil => cases second <;> simp [advance]
    | cons c rest => simp [advance, ih]

theorem regionsFrom_drop (reader : Reader) (count : Nat) (text : Text) :
    (reader.regionsFrom text).drop count =
      (reader.advance count text).regionsFrom (text.drop count) := by
  induction count generalizing reader text with
  | zero => simp [advance]
  | succ count ih =>
    cases text with
    | nil => simp [advance, regionsFrom]
    | cons c rest => simp [advance, regionsFrom, ih]

/-- The characters that are code, each with its position, in a text that begins at
`position`. -/
def codeFrom (reader : Reader) (position : Nat) : Text → List (Nat × Char)
  | [] => []
  | c :: rest =>
    let (next, region) := reader.step c rest
    if region = .code then (position, c) :: next.codeFrom (position + 1) rest
    else next.codeFrom (position + 1) rest

/-- The characters that are code, each where it stands, in a text that begins at
`position`. -/
def spotsFrom (reader : Reader) (position : Nat) : Text → List Spot
  | [] => []
  | c :: rest =>
    let (next, region) := reader.step c rest
    if region = .code then
      ⟨position, reader.behind, c, rest⟩ :: next.spotsFrom (position + 1) rest
    else next.spotsFrom (position + 1) rest

theorem map_spotsFrom (reader : Reader) (position : Nat) (text : Text) :
    (reader.spotsFrom position text).map (fun spot => (spot.position, spot.char)) =
      reader.codeFrom position text := by
  induction text generalizing reader position with
  | nil => rfl
  | cons c rest ih =>
    unfold spotsFrom codeFrom
    dsimp only
    split
    · rw [List.map_cons, ih]
    · exact ih _ _

theorem mem_codeFrom {reader : Reader} {position : Nat} {text : Text} {unit : Nat × Char} :
    unit ∈ reader.codeFrom position text ↔
      ∃ index, unit.1 = position + index ∧ text[index]? = some unit.2 ∧
        (reader.regionsFrom text)[index]? = some .code := by
  induction text generalizing reader position with
  | nil => simp [codeFrom]
  | cons c rest ih =>
    have hRest : (unit ∈ (reader.step c rest).1.codeFrom (position + 1) rest) ↔
        ∃ index, unit.1 = position + (index + 1) ∧ (c :: rest)[index + 1]? = some unit.2 ∧
          (reader.regionsFrom (c :: rest))[index + 1]? = some .code := by
      rw [ih]
      simp only [regionsFrom, List.getElem?_cons_succ, Nat.add_assoc, Nat.add_comm 1]
    have hHere : (reader.regionsFrom (c :: rest))[0]? = some (reader.step c rest).2 := rfl
    unfold codeFrom
    dsimp only
    constructor
    · intro h
      split at h
      · rename_i hCode
        rcases List.mem_cons.mp h with rfl | hMem
        · exact ⟨0, rfl, rfl, hHere.trans (congrArg some hCode)⟩
        · obtain ⟨index, hIndex⟩ := hRest.mp hMem
          exact ⟨index + 1, hIndex⟩
      · obtain ⟨index, hIndex⟩ := hRest.mp h
        exact ⟨index + 1, hIndex⟩
    · rintro ⟨index, hPosition, hChar, hRegion⟩
      cases index with
      | zero =>
        have hCode : (reader.step c rest).2 = .code := Option.some.inj (hHere.symm.trans hRegion)
        have hEq : unit = (position, c) :=
          Prod.ext hPosition (Option.some.inj hChar).symm
        rw [if_pos hCode, hEq]
        exact List.mem_cons_self
      | succ index =>
        have hMem := hRest.mpr ⟨index, hPosition, hChar, hRegion⟩
        split
        · exact List.mem_cons_of_mem _ hMem
        · exact hMem

theorem codeFrom_ascending (reader : Reader) (position : Nat) (text : Text) :
    (reader.codeFrom position text).Pairwise (fun first second => first.1 < second.1) := by
  induction text generalizing reader position with
  | nil => exact .nil
  | cons c rest ih =>
    unfold codeFrom
    dsimp only
    split
    · refine List.pairwise_cons.mpr ⟨?_, ih _ _⟩
      intro unit hUnit
      obtain ⟨index, hIndex, -⟩ := mem_codeFrom.mp hUnit
      rw [hIndex]
      omega
    · exact ih _ _

end Reader

/-! ## Views of a whole text -/

/-- The region of each character of a text. -/
def regions (text : Text) : List Region := Reader.start.regionsFrom text

@[simp] theorem length_regions (text : Text) : (regions text).length = text.length :=
  Reader.length_regionsFrom _ _

/-- The region that a text ends in. -/
def endRegion (text : Text) : Region :=
  (Reader.start.advance text.length text).mode.region

/-- The region at a position; from the end on, the region that the text ends in. -/
def regionAt (text : Text) (position : Nat) : Region :=
  (regions text)[position]?.getD (endRegion text)

/-- Whether the character at a position is code. -/
def isCodeAt (text : Text) (position : Nat) : Bool := regionAt text position == .code

/-- The characters that are code, with their positions. -/
def codeUnits (text : Text) : List (Nat × Char) := Reader.start.codeFrom 0 text

theorem mem_codeUnits {text : Text} {position : Nat} {c : Char} :
    (position, c) ∈ codeUnits text ↔
      text[position]? = some c ∧ (regions text)[position]? = some .code := by
  simp [codeUnits, regions, Reader.mem_codeFrom]

/-- The characters that are code, each where it stands. -/
def codeSpots (text : Text) : List Spot := Reader.start.spotsFrom 0 text

theorem map_codeSpots (text : Text) :
    (codeSpots text).map (fun spot => (spot.position, spot.char)) = codeUnits text :=
  Reader.map_spotsFrom _ _ _

/-- The characters that are code from a position on, which is taken to be code. -/
def codeUnitsAt (text : Text) (position : Nat) : List (Nat × Char) :=
  (Reader.startingAt text position).codeFrom position (text.drop position)

/-- The reader behind a text, where reading begins at a position. -/
def readerAtEnd (text : Text) (position : Nat) : Reader :=
  let ahead := text.drop position
  (Reader.startingAt text position).advance ahead.length ahead

/-- The position the reader reaches: the end of the text, or beyond it where reading
began beyond or an escape is cut off. -/
def endPosition (text : Text) (position : Nat) : Nat :=
  max position text.length + (readerAtEnd text position).held

/-! ## Runs -/

/-- Ascending positions as maximal runs, each with its end excluded. -/
def runs : List Nat → List (Nat × Nat)
  | [] => []
  | position :: rest =>
    match runs rest with
    | [] => [(position, position + 1)]
    | (start, stop) :: others =>
      if position + 1 = start then (position, stop) :: others
      else (position, position + 1) :: (start, stop) :: others

theorem runs_lt {positions : List Nat} {run : Nat × Nat} (h : run ∈ runs positions) :
    run.1 < run.2 := by
  induction positions generalizing run with
  | nil => cases h
  | cons position rest ih =>
    unfold runs at h
    split at h
    · cases List.mem_singleton.mp h
      exact Nat.lt_succ_self _
    · rename_i start stop others hRuns
      have hFirst : start < stop := ih (hRuns ▸ List.mem_cons_self)
      have hOthers : ∀ run ∈ others, run.1 < run.2 := fun run hRun =>
        ih (hRuns ▸ List.mem_cons_of_mem _ hRun)
      split at h
      · rcases List.mem_cons.mp h with rfl | hRun
        · dsimp only
          omega
        · exact hOthers run hRun
      · rcases List.mem_cons.mp h with rfl | hRun
        · exact Nat.lt_succ_self _
        · exact ih (hRuns ▸ hRun)

theorem runs_flatten (positions : List Nat) :
    (runs positions).flatMap (fun run => List.range' run.1 (run.2 - run.1)) = positions := by
  induction positions with
  | nil => rfl
  | cons position rest ih =>
    unfold runs
    split
    · rename_i hRuns
      rw [hRuns] at ih
      simpa using ih
    · rename_i start stop others hRuns
      have hFirst : start < stop := @runs_lt rest (start, stop) (hRuns ▸ List.mem_cons_self)
      rw [hRuns] at ih
      split
      · rename_i hNext
        have hWidth : stop - position = stop - start + 1 := by omega
        simp only [List.flatMap_cons] at ih ⊢
        rw [hWidth, List.range'_succ, hNext, List.cons_append, ih]
      · simpa using ih

/-- The maximal ranges of a text that are code. -/
def codeRanges (text : Text) : List (Nat × Nat) := runs ((codeUnits text).map Prod.fst)

/-- The places from `position` on where the region becomes another one than `last`. -/
def changes (last : Option Region) (position : Nat) : List Region → List (Nat × Region)
  | [] => []
  | region :: rest =>
    let others := changes (some region) (position + 1) rest
    if last = some region then others else (position, region) :: others

/-- The region at every position of a text and at its end, written where it changes. -/
def regionChanges (text : Text) : List (Nat × Region) :=
  changes none 0 (regions text ++ [endRegion text])

end XdrBindings.Code
