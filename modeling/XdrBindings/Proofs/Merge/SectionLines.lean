import XdrBindings.Proofs.Code.ClassLines
import XdrBindings.Proofs.Code.DeclarationLines
import XdrBindings.Proofs.Merge.SplicedAgain

/-!
# Sections by lines

Whether a text can be read as an old file is decided by the lines that its markers and the braces
of its classes stand on: the marker lines have to pair up, and each pair has to stand between the
two lines of a class.  Where the lines stand in the text, in characters, does not matter, so texts
with the same lines hold the same sections.

## Main results

* `PairUpWithin` — marker lines that pair up within blocks of lines.
* `PairUpWithin.of_append` — marker lines and blocks on both sides of a line.
* `Style.holdsSections_iff` — which texts hold sections, by their lines.
-/

namespace XdrBindings.Merge

open Code

/-! ## Marker lines by their numbers -/

/-- The sorts of lines that are marker lines, with the numbers of the lines. -/
def numbered : Nat → List (Option MarkerKind) → List (MarkerKind × Nat)
  | _, [] => []
  | line, none :: rest => numbered (line + 1) rest
  | line, some kind :: rest => (kind, line) :: numbered (line + 1) rest

theorem numbered_append (line : Nat) (front back : List (Option MarkerKind)) :
    numbered line (front ++ back) =
      numbered line front ++ numbered (line + front.length) back := by
  induction front generalizing line with
  | nil => rfl
  | cons kind rest ih =>
    have hLine : line + (kind :: rest).length = line + 1 + rest.length := by
      rw [List.length_cons]
      omega
    cases kind with
    | none => rw [List.cons_append, numbered, numbered, ih, hLine]
    | some kind => rw [List.cons_append, numbered, numbered, ih, hLine, List.cons_append]

theorem numbered_add (count line : Nat) (kinds : List (Option MarkerKind)) :
    numbered (line + count) kinds = (numbered line kinds).map (Prod.map id (· + count)) := by
  induction kinds generalizing line with
  | nil => rfl
  | cons kind rest ih =>
    have hLine : line + count + 1 = line + 1 + count := by omega
    cases kind with
    | none => rw [numbered, numbered, hLine, ih]
    | some kind => rw [numbered, numbered, hLine, ih, List.map_cons]; rfl

theorem numbered_eq_nil {kinds : List (Option MarkerKind)} (h : ∀ kind ∈ kinds, kind = none)
    (line : Nat) : numbered line kinds = [] := by
  induction kinds generalizing line with
  | nil => rfl
  | cons kind rest ih =>
    obtain ⟨rfl, hRest⟩ := List.forall_mem_cons.mp h
    exact ih hRest (line + 1)

theorem bounds_of_mem_numbered {line : Nat} {kinds : List (Option MarkerKind)}
    {entry : MarkerKind × Nat} (h : entry ∈ numbered line kinds) :
    line ≤ entry.2 ∧ entry.2 < line + kinds.length := by
  induction kinds generalizing line with
  | nil => cases h
  | cons kind rest ih =>
    rw [List.length_cons]
    cases kind with
    | none =>
      have hRest := ih h
      omega
    | some kind =>
      rcases List.mem_cons.mp h with rfl | hMem
      · omega
      · have hRest := ih hMem
        omega

theorem Style.map_markersFrom (style : Style) (line position : Nat) (chunks : List Text) :
    (style.markersFrom line position chunks).map (fun marker => (marker.kind, marker.line)) =
      numbered line (chunks.map style.markerOf?) := by
  induction chunks generalizing line position with
  | nil => rfl
  | cons chunk rest ih =>
    rw [markersFrom, List.map_cons]
    cases style.markerOf? chunk with
    | none => exact ih _ _
    | some kind => rw [numbered, ← ih]; rfl

/-- The marker lines of a text, by sort and number. -/
def Style.markedLines (style : Style) (text : Text) : List (MarkerKind × Nat) :=
  (style.markers text).map fun marker => (marker.kind, marker.line)

/-- Marker lines pair up, each pair between the first and the last line of a block. -/
inductive PairUpWithin (blocks : List (Nat × Nat)) : List (MarkerKind × Nat) → Prop
  | nil : PairUpWithin blocks []
  | pair {block : Nat × Nat} {first last : Nat} {rest : List (MarkerKind × Nat)} :
    block ∈ blocks → block.1 < first → last < block.2 → PairUpWithin blocks rest →
    PairUpWithin blocks ((.start, first) :: (.finish, last) :: rest)

namespace PairUpWithin

variable {blocks others : List (Nat × Nat)} {front back : List (MarkerKind × Nat)}

theorem mono (hBlocks : ∀ block ∈ blocks, block ∈ others) (h : PairUpWithin blocks front) :
    PairUpWithin others front := by
  induction h with
  | nil => exact .nil
  | pair hMem hFirst hLast _ ih => exact .pair (hBlocks _ hMem) hFirst hLast ih

theorem append (hFront : PairUpWithin blocks front) (hBack : PairUpWithin blocks back) :
    PairUpWithin blocks (front ++ back) := by
  induction hFront with
  | nil => exact hBack
  | pair hMem hFirst hLast _ ih => exact .pair hMem hFirst hLast ih

/-- Blocks and lines that are moved down alike. -/
theorem map_add_iff (count : Nat) :
    PairUpWithin (blocks.map (Prod.map (· + count) (· + count)))
        (front.map (Prod.map id (· + count))) ↔ PairUpWithin blocks front := by
  constructor
  · intro h
    generalize hMoved : front.map (Prod.map id (· + count)) = moved at h
    induction h generalizing front with
    | nil =>
      rw [List.map_eq_nil_iff.mp hMoved]
      exact .nil
    | pair hMem hFirst hLast _ ih =>
      obtain ⟨⟨kind, first⟩, _, rfl, hStart, hBehind⟩ := List.map_eq_cons_iff.mp hMoved
      obtain ⟨⟨other, last⟩, rest, rfl, hFinish, hRest⟩ := List.map_eq_cons_iff.mp hBehind
      obtain ⟨block, hBlock, rfl⟩ := List.mem_map.mp hMem
      obtain ⟨rfl, rfl⟩ := Prod.mk.inj hStart
      obtain ⟨rfl, rfl⟩ := Prod.mk.inj hFinish
      exact .pair hBlock (Nat.lt_of_add_lt_add_right hFirst) (Nat.lt_of_add_lt_add_right hLast)
        (ih hRest)
  · intro h
    induction h with
    | nil => exact .nil
    | pair hMem hFirst hLast _ ih =>
      exact .pair (List.mem_map_of_mem hMem) (Nat.add_lt_add_right hFirst count)
        (Nat.add_lt_add_right hLast count) ih

section Split

variable {line : Nat} (hUpper : ∀ block ∈ blocks, block.2 ≤ line)
  (hLower : ∀ block ∈ others, line < block.1)

include hUpper hLower

/-- Blocks on either side of a line hold the pairs of their side. -/
theorem of_append (hFront : ∀ entry ∈ front, entry.2 ≤ line)
    (hBack : ∀ entry ∈ back, line < entry.2) (h : PairUpWithin (blocks ++ others) (front ++ back)) :
    PairUpWithin blocks front ∧ PairUpWithin others back := by
  generalize hAll : front ++ back = marked at h
  induction h generalizing front back with
  | nil =>
    obtain ⟨rfl, rfl⟩ := List.append_eq_nil_iff.mp hAll
    exact ⟨.nil, .nil⟩
  | @pair block first last rest hMem hFirst hLast hRest ih =>
    cases front with
    | nil =>
      subst hAll
      obtain ⟨-, hOthers⟩ := @ih [] rest nofun
        (fun entry hEntry => hBack entry (by simp [hEntry])) rfl
      refine ⟨.nil, .pair ((List.mem_append.mp hMem).resolve_left fun hBlock => ?_) hFirst hLast
        hOthers⟩
      have hAbove := hUpper block hBlock
      have hBelow := hBack (.finish, last) (by simp)
      dsimp only at hBelow
      omega
    | cons entry front =>
      obtain ⟨rfl, hBehind⟩ := List.cons.inj hAll
      have hLine := hFront (.start, first) List.mem_cons_self
      dsimp only at hLine
      have hBlock : block ∈ blocks := (List.mem_append.mp hMem).resolve_right fun hBlock => by
        have hBelow := hLower block hBlock
        omega
      cases front with
      | nil =>
        have hAbove := hUpper block hBlock
        have hBelow := hBack (.finish, last) (by simp [show back = _ from hBehind])
        dsimp only at hBelow
        omega
      | cons entry front =>
        obtain ⟨rfl, hBelow⟩ := List.cons.inj hBehind
        obtain ⟨hOwn, hOthers⟩ := ih (fun entry hEntry => hFront entry
          (List.mem_cons_of_mem _ (List.mem_cons_of_mem _ hEntry))) hBack hBelow
        exact ⟨.pair hBlock hFirst hLast hOwn, hOthers⟩

end Split

/-- Marker lines pair up within blocks if they are the lines of such pairs. -/
theorem iff_exists_pairs {markers : List Marker} :
    PairUpWithin blocks (markers.map fun marker => (marker.kind, marker.line)) ↔
      ∃ pairs : List (Marker × Marker), markers = pairs.flatMap (fun pair => [pair.1, pair.2]) ∧
        ∀ pair ∈ pairs, (pair.1.kind = .start ∧ pair.2.kind = .finish) ∧
          ∃ block ∈ blocks, block.1 < pair.1.line ∧ pair.2.line < block.2 := by
  constructor
  · intro h
    generalize hMarked : markers.map (fun marker => (marker.kind, marker.line)) = marked at h
    induction h generalizing markers with
    | nil => exact ⟨[], List.map_eq_nil_iff.mp hMarked, List.forall_mem_nil _⟩
    | pair hMem hFirst hLast _ ih =>
      obtain ⟨start, _, rfl, hStart, hBehind⟩ := List.map_eq_cons_iff.mp hMarked
      obtain ⟨finish, rest, rfl, hFinish, hRest⟩ := List.map_eq_cons_iff.mp hBehind
      obtain ⟨pairs, rfl, hPairs⟩ := ih hRest
      obtain ⟨hKind, rfl⟩ := Prod.mk.inj hStart
      obtain ⟨hOther, rfl⟩ := Prod.mk.inj hFinish
      exact ⟨(start, finish) :: pairs, rfl, List.forall_mem_cons.mpr
        ⟨⟨⟨hKind, hOther⟩, _, hMem, hFirst, hLast⟩, hPairs⟩⟩
  · rintro ⟨pairs, rfl, hPairs⟩
    induction pairs with
    | nil => exact .nil
    | cons pair rest ih =>
      obtain ⟨⟨⟨hStart, hFinish⟩, block, hMem, hFirst, hLast⟩, hRest⟩ :=
        List.forall_mem_cons.mp hPairs
      rw [List.flatMap_cons, List.map_append, List.map_cons, List.map_singleton, hStart, hFinish]
      exact .pair hMem hFirst hLast (ih hRest)

end PairUpWithin

/-! ## Sections by lines -/

namespace Style

variable {style : Style} {text : Text}

/-- A marker line stands behind a place of its text if it is on a later line, and in front of it
if it is on an earlier one. -/
theorem lines_of_mem_markers {marker : Marker} (h : marker ∈ style.markers text) {position : Nat}
    (hPosition : position < text.length) :
    (position < marker.start ↔ text.lineOf position < marker.line) ∧
      (marker.stop ≤ position ↔ marker.line < text.lineOf position) := by
  obtain ⟨earlier, later, hMarkers⟩ := List.append_of_mem h
  obtain ⟨before, chunk, behind, hChunks, -, hLine, hStart, hStop, -⟩ :=
    exists_of_markersFrom_eq hMarkers
  have hFront := LineHead.lt_flatten_iff hChunks hPosition
  have hWhole : text.chunks = (before ++ [chunk]) ++ behind := by
    rw [hChunks]
    simp
  have hBehind := LineHead.lt_flatten_iff hWhole hPosition
  rw [List.flatten_append, List.flatten_singleton, List.length_append, List.length_append,
    List.length_singleton] at hBehind
  omega

theorem start_lt_stop_of_mem_pairs {pairs : List (Marker × Marker)}
    (h : style.pairs text = .ok pairs) {pair : Marker × Marker} (hPair : pair ∈ pairs) :
    pair.1.start < pair.2.stop := by
  obtain ⟨before, opening, inner, closing, behind, hChunks, -, -, -, -, -, hStop, hStart, hLast,
    -⟩ := exists_of_mem_pairs h hPair
  have hCut : text.chunks = (before ++ [opening]) ++ (inner ++ closing :: behind) := by
    rw [hChunks]
    simp
  have hWhole := (Text.dropLast_of_chunks_eq hCut (by simp)
    (List.mem_append_right _ List.mem_cons_self)).1
  have hLength := congrArg List.length hWhole
  rw [List.length_append, List.length_singleton] at hLength
  omega

/-- Which texts hold sections is decided by the lines of their markers and classes. -/
theorem holdsSections_iff : style.HoldsSections text ↔
    (walkBehind text).form.isOutside = true ∧
      PairUpWithin (blockLines text) (style.markedLines text) := by
  have hLines (pair : Marker × Marker) (hFirst : pair.1 ∈ style.markers text)
      (hSecond : pair.2 ∈ style.markers text) {site : Site} (hSite : site ∈ sitesOf text) :
      (site.opening < pair.1.start ∧ pair.2.stop ≤ site.closing) ↔
        text.lineOf site.opening < pair.1.line ∧ pair.2.line < text.lineOf site.closing := by
    have hClosing := closing_lt_of_mem_sitesOf hSite
    have hOpening := (matches_of_mem_sitesOf hSite).lt
    exact and_congr (lines_of_mem_markers hFirst (hOpening.trans hClosing)).1
      (lines_of_mem_markers hSecond hClosing).2
  have hMem {pairs : List (Marker × Marker)} {pair : Marker × Marker}
      (hMarkers : style.markers text = pairs.flatMap fun pair => [pair.1, pair.2])
      (hPair : pair ∈ pairs) : pair.1 ∈ style.markers text ∧ pair.2 ∈ style.markers text := by
    rw [hMarkers]
    exact ⟨List.mem_flatMap.mpr ⟨pair, hPair, by simp⟩, List.mem_flatMap.mpr ⟨pair, hPair, by simp⟩⟩
  constructor
  · rintro ⟨pairs, hPairs, classes, hClasses, hAll⟩
    obtain ⟨⟨depth, pending, hWalk⟩, rfl⟩ :=
      classesOf_eq_ok_iff.mp (eq_ok_of_mem_toOption hClasses)
    obtain ⟨hMarkers, hKinds⟩ := pairs_eq_ok_iff.mp (eq_ok_of_mem_toOption hPairs)
    refine ⟨by rw [hWalk]; rfl, PairUpWithin.iff_exists_pairs.mpr ⟨pairs, hMarkers, ?_⟩⟩
    intro pair hPair
    obtain ⟨decl, hDecl, hEncloses, hStop⟩ := hAll pair hPair
    obtain ⟨site, hSite, rfl⟩ := List.mem_map.mp hDecl
    rw [ClassDecl.encloses, Bool.and_eq_true, decide_eq_true_eq] at hEncloses
    obtain ⟨hFirst, hSecond⟩ := hMem hMarkers hPair
    exact ⟨hKinds pair hPair, _, List.mem_map_of_mem hSite,
      (hLines pair hFirst hSecond hSite).mp ⟨hEncloses.1, hStop⟩⟩
  · rintro ⟨hWalk, hWithin⟩
    obtain ⟨pairs, hMarkers, hAll⟩ := PairUpWithin.iff_exists_pairs.mp hWithin
    have hPairs := pairs_eq_ok_iff.mpr ⟨hMarkers, fun pair hPair => (hAll pair hPair).1⟩
    obtain ⟨depth, pending, hOutside⟩ : ∃ depth pending,
        walkBehind text = .outside depth pending := by
      cases hHere : walkBehind text with
      | outside depth pending => exact ⟨depth, pending, rfl⟩
      | inside name keyword opening depth =>
        rw [hHere] at hWalk
        cases hWalk
    have hClasses := classesOf_eq_ok_iff.mpr ⟨⟨depth, pending, hOutside⟩, rfl⟩
    refine ⟨pairs, by rw [hPairs]; rfl, _, by rw [hClasses]; rfl, fun pair hPair => ?_⟩
    obtain ⟨-, block, hBlock, hPositions⟩ := hAll pair hPair
    obtain ⟨site, hSite, rfl⟩ := List.mem_map.mp hBlock
    obtain ⟨hFirst, hSecond⟩ := hMem hMarkers hPair
    obtain ⟨hOpening, hClosing⟩ := (hLines pair hFirst hSecond hSite).mpr hPositions
    have hLt := start_lt_stop_of_mem_pairs hPairs hPair
    refine ⟨_, List.mem_map_of_mem hSite, ?_, hClosing⟩
    rw [ClassDecl.encloses, Bool.and_eq_true, decide_eq_true_eq, decide_eq_true_eq]
    exact ⟨hOpening, hLt.trans_le hClosing⟩

end Style

end XdrBindings.Merge
