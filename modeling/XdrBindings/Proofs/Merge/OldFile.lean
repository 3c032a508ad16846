import XdrBindings.Merge.OldFile
import XdrBindings.Proofs.Code.Classes
import XdrBindings.Proofs.Outcome
import XdrBindings.Proofs.Text.Lines

/-!
# Where the sections of an old file stand

Every section of an old file comes from two marker lines, a start and the end behind it with
no other marker line between them.  Its content is the text between the two lines, and the
class that holds it encloses the beginning of the first.  Classes stand one behind the other, so no
other class does.

## Main results

* `Style.exists_of_markersFrom_eq` — marker lines cut the text.
* `Style.pairs_eq_ok_iff` — the marker lines of a text are the pairs, written out.
* `exists_of_mem_pairs` — a pair of marker lines, as lines of the text.
* `OldFile.ofText_eq_ok_iff` — what is read, class by class.
* `exists_pair_of_section` — the pair that a section comes from.
-/

namespace XdrBindings.Merge

open Code

/-! ## Marker lines -/

theorem Style.exists_of_markersFrom_eq {style : Style} {line position : Nat}
    {chunks : List Text} {front back : List Marker} {marker : Marker}
    (h : style.markersFrom line position chunks = front ++ marker :: back) :
    ∃ before chunk behind, chunks = before ++ chunk :: behind ∧
      style.markerOf? chunk = some marker.kind ∧
      marker.line = line + before.length ∧
      marker.start = position + before.flatten.length ∧
      marker.stop = marker.start + chunk.length ∧
      style.markersFrom line position before = front ∧
      style.markersFrom (marker.line + 1) marker.stop behind = back := by
  induction chunks generalizing line position front with
  | nil => simp [markersFrom] at h
  | cons chunk rest ih =>
    -- the marker line is below the first line
    have hRest {front : List Marker}
        (hEq : style.markersFrom (line + 1) (position + chunk.length) rest =
          front ++ marker :: back) :
        ∃ before other behind, chunk :: rest = (chunk :: before) ++ other :: behind ∧
          style.markerOf? other = some marker.kind ∧
          marker.line = line + (chunk :: before).length ∧
          marker.start = position + (chunk :: before).flatten.length ∧
          marker.stop = marker.start + other.length ∧
          style.markersFrom (line + 1) (position + chunk.length) before = front ∧
          style.markersFrom (marker.line + 1) marker.stop behind = back := by
      obtain ⟨before, other, behind, hChunks, hKind, hLine, hStart, hStop, hFront, hBack⟩ := ih hEq
      refine ⟨before, other, behind, congrArg (chunk :: ·) hChunks, hKind, ?_, ?_, hStop, hFront,
        hBack⟩
      · rw [hLine, List.length_cons]
        omega
      · rw [hStart, List.flatten_cons, List.length_append]
        omega
    rw [markersFrom] at h
    cases hMarker : style.markerOf? chunk with
    | none =>
      rw [hMarker] at h
      obtain ⟨before, other, behind, hChunks, hKind, hLine, hStart, hStop, hFront, hBack⟩ := hRest h
      refine ⟨chunk :: before, other, behind, hChunks, hKind, hLine, hStart, hStop, ?_, hBack⟩
      rw [markersFrom, hMarker]
      exact hFront
    | some kind =>
      rw [hMarker] at h
      cases front with
      | nil =>
        obtain ⟨rfl, hBack⟩ := List.cons.inj h
        exact ⟨[], chunk, rest, rfl, hMarker, rfl, rfl, rfl, rfl, hBack⟩
      | cons first front =>
        obtain ⟨rfl, hTail⟩ := List.cons.inj h
        obtain ⟨before, other, behind, hChunks, hKind, hLine, hStart, hStop, hFront, hBack⟩ :=
          hRest hTail
        refine ⟨chunk :: before, other, behind, hChunks, hKind, hLine, hStart, hStop, ?_, hBack⟩
        rw [markersFrom, hMarker]
        exact congrArg (_ :: ·) hFront

/-- A line that holds a marker is a marker line. -/
theorem Style.exists_mem_markersFrom {style : Style} {chunk : Text} {kind : MarkerKind}
    (hKind : style.markerOf? chunk = some kind) (before behind : List Text)
    (line position : Nat) :
    ∃ marker ∈ style.markersFrom line position (before ++ chunk :: behind),
      marker.kind = kind ∧ marker.start = position + before.flatten.length := by
  induction before generalizing line position with
  | nil =>
    rw [List.nil_append, markersFrom, hKind]
    exact ⟨_, List.mem_cons_self, rfl, rfl⟩
  | cons first rest ih =>
    obtain ⟨marker, hMem, hMarker, hStart⟩ := ih (line + 1) (position + first.length)
    have hLength : position + (first :: rest).flatten.length =
        position + first.length + rest.flatten.length := by
      rw [List.flatten_cons, List.length_append]
      omega
    rw [List.cons_append, markersFrom, hLength]
    cases style.markerOf? first with
    | none => exact ⟨marker, hMem, hMarker, hStart⟩
    | some other => exact ⟨marker, List.mem_cons_of_mem _ hMem, hMarker, hStart⟩

/-- Where no marker line is found, no line holds a marker. -/
theorem Style.markerOf?_of_markersFrom_eq_nil {style : Style} {line position : Nat}
    {chunks : List Text} (h : style.markersFrom line position chunks = []) :
    ∀ chunk ∈ chunks, style.markerOf? chunk = none := by
  intro chunk hMem
  cases hKind : style.markerOf? chunk with
  | none => rfl
  | some kind =>
    obtain ⟨before, behind, rfl⟩ := List.append_of_mem hMem
    obtain ⟨marker, hMarker, -⟩ := exists_mem_markersFrom hKind before behind line position
    rw [h] at hMarker
    cases hMarker

/-! ## Pairs -/

/-- What is paired up are the marker lines as they stand, a start and an end in each pair.  A start
may be left that waits for its end. -/
theorem exists_of_pairUp {opened : Option Marker} {markers : List Marker}
    {pairs : List (Marker × Marker)} (hOpened : ∀ marker ∈ opened, marker.kind = .start)
    (h : pairUp opened markers = .ok pairs) :
    (∀ pair ∈ pairs, pair.1.kind = .start ∧ pair.2.kind = .finish) ∧
      ∃ last : Option Marker, (∀ marker ∈ last, marker.kind = .start) ∧
        opened.toList ++ markers = pairs.flatMap (fun pair => [pair.1, pair.2]) ++ last.toList := by
  induction markers generalizing opened pairs with
  | nil =>
    have hNone : pairs = [] := by cases opened <;> cases h <;> rfl
    subst hNone
    exact ⟨List.forall_mem_nil _, opened, hOpened, List.append_nil _⟩
  | cons marker rest ih =>
    cases opened with
    | none =>
      rw [pairUp] at h
      cases hKind : marker.kind with
      | finish =>
        rw [hKind] at h
        cases h
      | start =>
        rw [hKind] at h
        have hStart : ∀ other ∈ some marker, other.kind = .start := by
          rintro other ⟨⟩
          exact hKind
        exact ih hStart h
    | some start =>
      rw [pairUp] at h
      cases hKind : marker.kind with
      | start =>
        rw [hKind] at h
        cases h
      | finish =>
        rw [hKind] at h
        obtain ⟨others, hOthers, hPairs⟩ := bind_eq_ok_iff.mp h
        obtain rfl : (start, marker) :: others = pairs := Except.ok.inj hPairs
        obtain ⟨hKinds, last, hLast, hEq⟩ := ih (by rintro _ ⟨⟩) hOthers
        refine ⟨List.forall_mem_cons.mpr ⟨⟨hOpened start rfl, hKind⟩, hKinds⟩, last, hLast, ?_⟩
        rw [Option.toList_none, List.nil_append] at hEq
        rw [hEq]
        rfl

theorem exists_of_mem_pairUp {opened : Option Marker} {markers : List Marker}
    {pairs : List (Marker × Marker)} (hOpened : ∀ marker ∈ opened, marker.kind = .start)
    (h : pairUp opened markers = .ok pairs) {pair : Marker × Marker} (hPair : pair ∈ pairs) :
    pair.1.kind = .start ∧ pair.2.kind = .finish ∧
      ∃ front back, opened.toList ++ markers = front ++ pair.1 :: pair.2 :: back := by
  obtain ⟨hKinds, last, -, hEq⟩ := exists_of_pairUp hOpened h
  obtain ⟨before, behind, rfl⟩ := List.append_of_mem hPair
  refine ⟨(hKinds pair hPair).1, (hKinds pair hPair).2,
    before.flatMap (fun pair => [pair.1, pair.2]),
    behind.flatMap (fun pair => [pair.1, pair.2]) ++ last.toList, ?_⟩
  rw [hEq]
  simp

/-- Marker lines that alternate are paired up as they stand. -/
theorem pairUp_pairs_append {pairs : List (Marker × Marker)}
    (hKinds : ∀ pair ∈ pairs, pair.1.kind = .start ∧ pair.2.kind = .finish) (rest : List Marker) :
    pairUp none (pairs.flatMap (fun pair => [pair.1, pair.2]) ++ rest) =
      (pairUp none rest).map (pairs ++ ·) := by
  induction pairs with
  | nil => cases hRest : pairUp none rest <;> simp [hRest, Except.map]
  | cons pair pairs ih =>
    obtain ⟨⟨hStart, hFinish⟩, hOthers⟩ := List.forall_mem_cons.mp hKinds
    rw [List.flatMap_cons, List.append_assoc, List.cons_append, pairUp, hStart]
    dsimp only
    rw [List.cons_append, List.nil_append, pairUp, hFinish]
    dsimp only
    rw [ih hOthers]
    cases pairUp none rest <;> rfl

theorem countP_start_pairs {pairs : List (Marker × Marker)}
    (hKinds : ∀ pair ∈ pairs, pair.1.kind = .start ∧ pair.2.kind = .finish) :
    (pairs.flatMap fun pair => [pair.1, pair.2]).countP (·.kind == .start) = pairs.length ∧
      (pairs.flatMap fun pair => [pair.1, pair.2]).length = 2 * pairs.length := by
  induction pairs with
  | nil => exact ⟨rfl, rfl⟩
  | cons pair pairs ih =>
    obtain ⟨⟨hStart, hFinish⟩, hOthers⟩ := List.forall_mem_cons.mp hKinds
    obtain ⟨hCount, hLength⟩ := ih hOthers
    rw [List.flatMap_cons, List.countP_append, List.length_append, hCount, hLength]
    simp [hStart, hFinish]
    omega

/-- The marker lines of a text are its pairs, written out. -/
theorem Style.pairs_eq_ok_iff {style : Style} {text : Text} {pairs : List (Marker × Marker)} :
    style.pairs text = .ok pairs ↔
      style.markers text = pairs.flatMap (fun pair => [pair.1, pair.2]) ∧
        ∀ pair ∈ pairs, pair.1.kind = .start ∧ pair.2.kind = .finish := by
  unfold Style.pairs
  dsimp only
  constructor
  · intro h
    split at h
    · rename_i hEven
      obtain ⟨hKinds, last, hLast, hEq⟩ := exists_of_pairUp (by rintro _ ⟨⟩) h
      obtain ⟨hCount, hLength⟩ := countP_start_pairs hKinds
      rw [Option.toList_none, List.nil_append] at hEq
      cases last with
      | none => exact ⟨hEq.trans (List.append_nil _), hKinds⟩
      | some marker =>
        -- one start more than ends
        have hStart := hLast marker rfl
        rw [hEq, Option.toList_some, List.countP_append, List.length_append, hCount, hLength,
          List.countP_singleton, hStart, List.length_singleton] at hEven
        simp at hEven
        omega
    · cases h
  · rintro ⟨hEq, hKinds⟩
    obtain ⟨hCount, hLength⟩ := countP_start_pairs hKinds
    have hPaired := pairUp_pairs_append hKinds []
    rw [List.append_nil] at hPaired
    rw [hEq, hCount, hLength, if_pos (by omega), hPaired]
    exact congrArg Except.ok (List.append_nil pairs)

/-- The two lines of a pair cut the text, with the section between them. -/
theorem exists_of_mem_pairs {style : Style} {text : Text} {pairs : List (Marker × Marker)}
    (h : style.pairs text = .ok pairs) {pair : Marker × Marker} (hPair : pair ∈ pairs) :
    ∃ before opening inner closing behind,
      text.chunks = before ++ opening :: (inner ++ closing :: behind) ∧
      style.markerOf? opening = some .start ∧ style.markerOf? closing = some .finish ∧
      (∀ line ∈ inner, style.markerOf? line = none) ∧
      pair.1.line = before.length + 1 ∧
      pair.1.start = before.flatten.length ∧
      pair.1.stop = pair.1.start + opening.length ∧
      pair.2.start = pair.1.stop + inner.flatten.length ∧
      pair.2.stop = pair.2.start + closing.length ∧
      text.slice pair.1.stop pair.2.start = inner.flatten := by
  obtain ⟨hMarkers, hKinds⟩ := Style.pairs_eq_ok_iff.mp h
  obtain ⟨hStart, hFinish⟩ := hKinds pair hPair
  obtain ⟨front, back, rfl⟩ := List.append_of_mem hPair
  rw [List.flatMap_append, List.flatMap_cons, List.cons_append, List.cons_append] at hMarkers
  obtain ⟨before, opening, rest, hChunks, hOpening, hLine, hFirst, hFirstStop, -, hRest⟩ :=
    Style.exists_of_markersFrom_eq hMarkers
  obtain ⟨inner, closing, behind, rfl, hClosing, -, hSecond, hSecondStop, hInner, -⟩ :=
    Style.exists_of_markersFrom_eq (hRest.trans (List.nil_append _).symm)
  rw [hStart] at hOpening
  rw [hFinish] at hClosing
  rw [Nat.zero_add] at hFirst
  have hText : text = (before.flatten ++ opening) ++
      (inner.flatten ++ (closing ++ behind.flatten)) := by
    rw [← Text.chunks_flatten text, hChunks]
    simp
  have hStop : pair.1.stop = (before.flatten ++ opening).length := by
    rw [hFirstStop, hFirst, List.length_append]
  have hSlice : text.slice pair.1.stop pair.2.start = inner.flatten := by
    rw [hSecond, hStop]
    conv_lhs => rw [hText]
    exact Text.slice_middle _ _ _
  exact ⟨before, opening, inner, closing, behind, hChunks, hOpening, hClosing,
    Style.markerOf?_of_markersFrom_eq_nil hInner, hLine.trans (Nat.add_comm _ _), hFirst,
    hFirstStop, hSecond, hSecondStop, hSlice⟩

/-! ## Classes -/

/-- Classes that are found stand one behind the other. -/
theorem classesOf_pairwise {text : Text} {classes : List ClassDecl}
    (h : classesOf text = .ok classes) :
    classes.Pairwise fun decl later => decl.closing < later.opening := by
  obtain ⟨-, rfl⟩ := classesOf_eq_ok_iff.mp h
  exact List.pairwise_map.mpr (Walk.sites_pairwise _ (codeSpots_ascending text))

/-- What stands within a class stands in front of the classes behind it. -/
theorem not_encloses_of_lt {decl later : ClassDecl} (hApart : decl.closing < later.opening)
    {position : Nat} (h : decl.encloses position = true) : later.encloses position = false := by
  simp only [ClassDecl.encloses, Bool.and_eq_true, decide_eq_true_eq, Bool.and_eq_false_iff,
    decide_eq_false_iff_not] at h ⊢
  omega

/-- No place stands within two classes. -/
theorem index_eq_of_encloses {classes : List ClassDecl}
    (hApart : classes.Pairwise fun decl later => decl.closing < later.opening) {first second : Nat}
    {decl other : ClassDecl} (hDecl : classes[first]? = some decl)
    (hOther : classes[second]? = some other) {position : Nat}
    (hWithin : decl.encloses position = true) (hAlso : other.encloses position = true) :
    first = second := by
  have hPairwise := List.pairwise_iff_getElem.mp hApart
  obtain ⟨hFirst, rfl⟩ := List.getElem?_eq_some_iff.mp hDecl
  obtain ⟨hSecond, rfl⟩ := List.getElem?_eq_some_iff.mp hOther
  rcases Nat.lt_trichotomy first second with hLt | hEq | hLt
  · have hOutside := not_encloses_of_lt (hPairwise first second hFirst hSecond hLt) hWithin
    rw [hOutside] at hAlso
    cases hAlso
  · exact hEq
  · have hOutside := not_encloses_of_lt (hPairwise second first hSecond hFirst hLt) hAlso
    rw [hOutside] at hWithin
    cases hWithin

theorem eq_of_encloses {text : Text} {classes : List ClassDecl} {decl other : ClassDecl}
    {position : Nat} (hClasses : classesOf text = .ok classes) (hDecl : decl ∈ classes)
    (hOther : other ∈ classes) (hWithin : decl.encloses position = true)
    (hAlso : other.encloses position = true) : decl = other := by
  obtain ⟨first, hFirst⟩ := List.mem_iff_getElem?.mp hDecl
  obtain ⟨second, hSecond⟩ := List.mem_iff_getElem?.mp hOther
  obtain rfl := index_eq_of_encloses (classesOf_pairwise hClasses) hFirst hSecond hWithin hAlso
  exact Option.some.inj (hFirst.symm.trans hSecond)

/-! ## Sections -/

/-- The sections between the pairs of marker lines that begin within a class. -/
def sectionsWithin (text : Text) (decl : ClassDecl) (pairs : List (Marker × Marker)) :
    List Section :=
  (pairs.filter fun pair => decl.encloses pair.1.start).map fun pair =>
    ⟨decl.name, text.slice pair.1.stop pair.2.start, pair.1.line⟩

/-- A class with the sections of some more pairs. -/
def OldClass.given (text : Text) (pairs : List (Marker × Marker)) (old : OldClass) : OldClass :=
  ⟨old.decl, old.sections ++ sectionsWithin text old.decl pairs⟩

theorem OldClass.given_cons (text : Text) (pair : Marker × Marker)
    (pairs : List (Marker × Marker)) (old : OldClass) :
    old.given text (pair :: pairs) = (old.given text [pair]).given text pairs := by
  have hFilter : (pair :: pairs).filter (fun pair => old.decl.encloses pair.1.start) =
      [pair].filter (fun pair => old.decl.encloses pair.1.start) ++
        pairs.filter fun pair => old.decl.encloses pair.1.start := by
    rw [← List.filter_append]
    rfl
  simp [given, sectionsWithin, hFilter]

section

variable {text : Text} {classes after : List OldClass}
  (hApart : (classes.map OldClass.decl).Pairwise fun decl later => decl.closing < later.opening)

include hApart

/-- A section is given to the class that it begins within, and to no other. -/
theorem attach_eq_ok_iff {pair : Marker × Marker} :
    attach text pair classes = .ok after ↔
      (∃ old ∈ classes, old.decl.encloses pair.1.start = true) ∧
        after = classes.map (OldClass.given text [pair]) := by
  induction classes generalizing after with
  | nil => exact iff_of_false nofun fun h => by simp at h
  | cons old rest ih =>
    obtain ⟨hFirst, hRest⟩ := List.pairwise_cons.mp hApart
    have hOutside {other : OldClass} (h : other.decl.encloses pair.1.start = false) :
        other.given text [pair] = other := by
      simp [OldClass.given, sectionsWithin, h]
    rw [attach, List.map_cons]
    by_cases hEncloses : old.decl.encloses pair.1.start = true
    · have hBehind : rest.map (OldClass.given text [pair]) = rest := by
        refine (List.map_congr_left fun other hOther => ?_).trans (List.map_id rest)
        exact hOutside (not_encloses_of_lt (hFirst _ (List.mem_map_of_mem hOther)) hEncloses)
      have hHere : old.given text [pair] = ⟨old.decl, old.sections ++
          [⟨old.decl.name, text.slice pair.1.stop pair.2.start, pair.1.line⟩]⟩ := by
        simp [OldClass.given, sectionsWithin, hEncloses]
      rw [if_pos hEncloses, hBehind, hHere, Except.ok.injEq]
      exact ⟨fun h => ⟨⟨old, List.mem_cons_self, hEncloses⟩, h.symm⟩, fun h => h.2.symm⟩
    · rw [if_neg hEncloses, hOutside (Bool.eq_false_iff.mpr hEncloses), bind_eq_ok_iff]
      constructor
      · rintro ⟨others, hOthers, hAfter⟩
        obtain ⟨⟨other, hOther, hHolds⟩, rfl⟩ := (ih hRest).mp hOthers
        exact ⟨⟨other, List.mem_cons_of_mem _ hOther, hHolds⟩, (Except.ok.inj hAfter).symm⟩
      · rintro ⟨⟨other, hOther, hHolds⟩, rfl⟩
        rcases List.mem_cons.mp hOther with rfl | hMem
        · exact absurd hHolds hEncloses
        · exact ⟨_, (ih hRest).mpr ⟨⟨other, hMem, hHolds⟩, rfl⟩, rfl⟩

/-- Each class gets the sections that begin within it, in their order, if every section begins
within a class. -/
theorem foldlM_attach_eq_ok_iff {pairs : List (Marker × Marker)} :
    pairs.foldlM (fun classes pair => attach text pair classes) classes = .ok after ↔
      (∀ pair ∈ pairs, ∃ old ∈ classes, old.decl.encloses pair.1.start = true) ∧
        after = classes.map (OldClass.given text pairs) := by
  induction pairs generalizing classes with
  | nil =>
    have hNone : classes.map (OldClass.given text []) = classes := by
      refine (List.map_congr_left fun old _ => ?_).trans (List.map_id classes)
      simp [OldClass.given, sectionsWithin]
    rw [hNone]
    exact ⟨fun h => ⟨List.forall_mem_nil _, (Except.ok.inj h).symm⟩, fun h => congrArg _ h.2.symm⟩
  | cons pair pairs ih =>
    have hDecls : (classes.map (OldClass.given text [pair])).map OldClass.decl =
        classes.map OldClass.decl := by
      rw [List.map_map]
      rfl
    have hGiven : classes.map (OldClass.given text (pair :: pairs)) =
        (classes.map (OldClass.given text [pair])).map (OldClass.given text pairs) := by
      rw [List.map_map]
      exact List.map_congr_left fun old _ => old.given_cons text pair pairs
    have hHolds (other : Marker × Marker) :
        (∃ old ∈ classes.map (OldClass.given text [pair]),
          old.decl.encloses other.1.start = true) ↔
        ∃ old ∈ classes, old.decl.encloses other.1.start = true := by
      simp [OldClass.given]
    rw [List.foldlM_cons, bind_eq_ok_iff, List.forall_mem_cons, hGiven]
    constructor
    · rintro ⟨first, hFirst, hAfter⟩
      obtain ⟨hHere, rfl⟩ := (attach_eq_ok_iff hApart).mp hFirst
      obtain ⟨hRest, rfl⟩ := (ih (hDecls.symm ▸ hApart)).mp hAfter
      exact ⟨⟨hHere, fun other hOther => (hHolds other).mp (hRest other hOther)⟩, rfl⟩
    · rintro ⟨⟨hHere, hRest⟩, rfl⟩
      refine ⟨_, (attach_eq_ok_iff hApart).mpr ⟨hHere, rfl⟩,
        (ih (hDecls.symm ▸ hApart)).mpr ⟨fun other hOther => ?_, rfl⟩⟩
      exact (hHolds other).mpr (hRest other hOther)

end

/-- A text is read if its marker lines pair up, its classes are found and every pair begins within a
class; each class then has the sections that begin within it. -/
theorem OldFile.ofText_eq_ok_iff {style : Style} {text : Text} {file : OldFile} :
    OldFile.ofText style text = .ok file ↔
      ∃ pairs found, style.pairs text = .ok pairs ∧ classesOf text = .ok found ∧
        (∀ pair ∈ pairs, ∃ decl ∈ found, decl.encloses pair.1.start = true) ∧
        file = ⟨headerOf text, importsOf text,
          found.map fun decl => ⟨decl, sectionsWithin text decl pairs⟩⟩ := by
  have hDecls (found : List ClassDecl) :
      (found.map fun decl => OldClass.mk decl []).map OldClass.decl = found := by
    rw [List.map_map]
    exact List.map_id found
  have hFold {found : List ClassDecl} (hFound : classesOf text = .ok found)
      (pairs : List (Marker × Marker)) (classes : List OldClass) :
      pairs.foldlM (fun classes pair => attach text pair classes)
          (found.map fun decl => OldClass.mk decl []) = .ok classes ↔
        (∀ pair ∈ pairs, ∃ decl ∈ found, decl.encloses pair.1.start = true) ∧
          classes = found.map fun decl => ⟨decl, sectionsWithin text decl pairs⟩ := by
    rw [foldlM_attach_eq_ok_iff ((hDecls found).symm ▸ classesOf_pairwise hFound)]
    simp [OldClass.given, Function.comp_def]
  have hMapped {found : List ClassDecl} :
      (classesOf text).mapError (fun found => Refusal.existing (.unclosedClass found)) =
        .ok found ↔ classesOf text = .ok found := by
    cases classesOf text with
    | error unclosed => exact iff_of_false nofun nofun
    | ok others => simp [Except.mapError]
  unfold OldFile.ofText
  simp only [bind_eq_ok_iff, hMapped]
  constructor
  · rintro ⟨pairs, hPairs, found, hFound, classes, hClasses, hFile⟩
    obtain ⟨hEnclosed, rfl⟩ := (hFold hFound pairs classes).mp hClasses
    exact ⟨pairs, found, hPairs, hFound, hEnclosed, (Except.ok.inj hFile).symm⟩
  · rintro ⟨pairs, found, hPairs, hFound, hEnclosed, rfl⟩
    exact ⟨pairs, hPairs, found, hFound, _, (hFold hFound pairs _).mpr ⟨hEnclosed, rfl⟩, rfl⟩

theorem OldFile.header_imports_eq {style : Style} {text : Text} {file : OldFile}
    (h : OldFile.ofText style text = .ok file) :
    file.header = headerOf text ∧ file.imports = importsOf text := by
  obtain ⟨pairs, found, -, -, -, rfl⟩ := ofText_eq_ok_iff.mp h
  exact ⟨rfl, rfl⟩

/-- The classes of an old file are those of its text. -/
theorem OldFile.classesOf_eq {style : Style} {text : Text} {file : OldFile}
    (h : OldFile.ofText style text = .ok file) :
    classesOf text = .ok (file.classes.map OldClass.decl) := by
  obtain ⟨pairs, found, -, hFound, -, rfl⟩ := ofText_eq_ok_iff.mp h
  rw [hFound, List.map_map]
  exact congrArg Except.ok (List.map_id found).symm

/-- A section of an old file comes from a pair of marker lines, and its class encloses the
first of them. -/
theorem exists_pair_of_section {style : Style} {text : Text} {file : OldFile}
    (h : OldFile.ofText style text = .ok file) {old : OldClass} (hOld : old ∈ file.classes)
    {part : Section} (hPart : part ∈ old.sections) :
    ∃ pairs pair, style.pairs text = .ok pairs ∧ pair ∈ pairs ∧
      old.decl.encloses pair.1.start = true ∧
      part.content = text.slice pair.1.stop pair.2.start := by
  obtain ⟨pairs, found, hPairs, -, -, rfl⟩ := OldFile.ofText_eq_ok_iff.mp h
  obtain ⟨decl, -, rfl⟩ := List.mem_map.mp hOld
  obtain ⟨pair, hPair, rfl⟩ := List.mem_map.mp hPart
  obtain ⟨hMem, hEncloses⟩ := List.mem_filter.mp hPair
  exact ⟨pairs, pair, hPairs, hMem, hEncloses, rfl⟩

end XdrBindings.Merge
