import XdrBindings.Proofs.Merge.OldFile

/-!
# What is read from an old file

An old file can be read if its classes are found, its marker lines alternate from a start to an end,
and every start line begins within the body of a class.  The pairs of marker lines are then the
sections of the classes: each pair gives one section, to the one class that it begins within, and
the sections of a class are in the order of the text.

## Main results

* `exists_pairs_iff` — marker lines that alternate are pairs, written out.
* `flatMap_filter_perm` — what is given out by places is given out once.
* `ofText_exact` — when a text is read, and the sections that are read from it.
-/

namespace XdrBindings.Merge

open Code

/-! ## Marker lines that alternate -/

/-- Marker lines that alternate from a start to an end are pairs, written out. -/
theorem exists_pairs_iff {markers : List Marker} :
    (∃ pairs : List (Marker × Marker), markers = pairs.flatMap (fun pair => [pair.1, pair.2]) ∧
        ∀ pair ∈ pairs, pair.1.kind = .start ∧ pair.2.kind = .finish) ↔
      ∃ count, markers.map Marker.kind =
        (List.replicate count [MarkerKind.start, MarkerKind.finish]).flatten := by
  constructor
  · rintro ⟨pairs, rfl, hKinds⟩
    refine ⟨pairs.length, ?_⟩
    induction pairs with
    | nil => rfl
    | cons pair pairs ih =>
      obtain ⟨⟨hStart, hFinish⟩, hOthers⟩ := List.forall_mem_cons.mp hKinds
      rw [List.flatMap_cons, List.map_append, ih hOthers, List.length_cons, List.replicate_succ,
        List.flatten_cons, List.map_cons, List.map_singleton, hStart, hFinish]
  · rintro ⟨count, hKinds⟩
    induction count generalizing markers with
    | zero =>
      obtain rfl := List.map_eq_nil_iff.mp hKinds
      exact ⟨[], rfl, List.forall_mem_nil _⟩
    | succ count ih =>
      rw [List.replicate_succ, List.flatten_cons] at hKinds
      obtain ⟨start, rest, rfl, hStart, hRest⟩ := List.map_eq_cons_iff.mp hKinds
      obtain ⟨finish, others, rfl, hFinish, hOthers⟩ := List.map_eq_cons_iff.mp hRest
      obtain ⟨pairs, rfl, hAll⟩ := ih hOthers
      exact ⟨(start, finish) :: pairs, rfl, List.forall_mem_cons.mpr ⟨⟨hStart, hFinish⟩, hAll⟩⟩

/-! ## Sections in a text -/

/-- `style.Frames text pair content` says that the first of two markers is a start line of the text,
the second an end line below it with no marker line between them, and the content is what stands
between the two lines. -/
def Style.Frames (style : Style) (text : Text) (pair : Marker × Marker) (content : Text) : Prop :=
  ∃ before opening inner closing behind,
    text.chunks = before ++ opening :: (inner ++ closing :: behind) ∧
    style.markerOf? opening = some .start ∧ style.markerOf? closing = some .finish ∧
    (∀ line ∈ inner, style.markerOf? line = none) ∧
    pair.1.line = before.length + 1 ∧ pair.1.start = before.flatten.length ∧
    pair.1.stop = (before ++ [opening]).flatten.length ∧
    pair.2.start = (before ++ opening :: inner).flatten.length ∧ content = inner.flatten

theorem Style.frames_of_mem_pairs {style : Style} {text : Text} {pairs : List (Marker × Marker)}
    (h : style.pairs text = .ok pairs) {pair : Marker × Marker} (hPair : pair ∈ pairs) :
    style.Frames text pair (text.slice pair.1.stop pair.2.start) := by
  obtain ⟨before, opening, inner, closing, behind, hChunks, hOpening, hClosing, hInner, hLine,
    hStart, hStop, hEnd, -, hSlice⟩ := exists_of_mem_pairs h hPair
  refine ⟨before, opening, inner, closing, behind, hChunks, hOpening, hClosing, hInner, hLine,
    hStart, ?_, ?_, hSlice⟩
  · rw [hStop, hStart]
    simp
  · rw [hEnd, hStop, hStart]
    simp [Nat.add_assoc]

/-! ## Sections by classes -/

/-- Where no place stands within two classes, things that each begin within a class are given out
once. -/
theorem flatMap_filter_perm {α : Type} {classes : List ClassDecl} {things : List α}
    {place : α → Nat} (hApart : classes.Pairwise fun decl later => decl.closing < later.opening)
    (hWithin : ∀ thing ∈ things, ∃ decl ∈ classes, decl.encloses (place thing) = true) :
    (classes.flatMap fun decl => things.filter fun thing => decl.encloses (place thing)).Perm
      things := by
  induction classes generalizing things with
  | nil =>
    have hNone : things = [] := List.eq_nil_iff_forall_not_mem.mpr fun thing hThing => by
      simpa using hWithin thing hThing
    rw [hNone]
    exact .nil
  | cons decl rest ih =>
    obtain ⟨hFirst, hRest⟩ := List.pairwise_cons.mp hApart
    -- the first class takes its things, and the others take from what is left
    have hLeft :
        (rest.flatMap fun later => things.filter fun thing => later.encloses (place thing)) =
        rest.flatMap fun later => (things.filter fun thing => !decl.encloses (place thing)).filter
          fun thing => later.encloses (place thing) := by
      refine List.flatMap_congr fun later hLater => ?_
      rw [List.filter_filter]
      refine List.filter_congr fun thing _ => ?_
      cases hHere : decl.encloses (place thing) with
      | false => simp
      | true => simp [not_encloses_of_lt (hFirst later hLater) hHere]
    have hOthers : ∀ thing ∈ things.filter fun thing => !decl.encloses (place thing),
        ∃ later ∈ rest, later.encloses (place thing) = true := by
      intro thing hThing
      obtain ⟨hMem, hOutside⟩ := List.mem_filter.mp hThing
      obtain ⟨other, hOther, hEncloses⟩ := hWithin thing hMem
      rcases List.mem_cons.mp hOther with rfl | hLater
      · simp [hEncloses] at hOutside
      · exact ⟨other, hLater, hEncloses⟩
    rw [List.flatMap_cons, hLeft]
    exact (List.Perm.append_left _ (ih hRest hOthers)).trans (List.filter_append_perm _ things)

/-- A text is read if and only if its classes are found, its marker lines alternate from a start to
an end, and every start line begins within a class. -/
theorem exists_ofText_iff {style : Style} {text : Text} :
    (∃ file, OldFile.ofText style text = .ok file) ↔
      ∃ found, classesOf text = .ok found ∧
        (∃ count, (style.markers text).map Marker.kind =
          (List.replicate count [MarkerKind.start, MarkerKind.finish]).flatten) ∧
        ∀ marker ∈ style.markers text, marker.kind = .start →
          ∃ decl ∈ found, decl.encloses marker.start = true := by
  constructor
  · rintro ⟨file, hFile⟩
    obtain ⟨pairs, found, hPairs, hFound, hEnclosed, -⟩ := OldFile.ofText_eq_ok_iff.mp hFile
    obtain ⟨hMarkers, hKinds⟩ := Style.pairs_eq_ok_iff.mp hPairs
    refine ⟨found, hFound, exists_pairs_iff.mp ⟨pairs, hMarkers, hKinds⟩, ?_⟩
    intro marker hMarker hStart
    rw [hMarkers] at hMarker
    obtain ⟨pair, hPair, hMem⟩ := List.mem_flatMap.mp hMarker
    rcases List.mem_pair.mp hMem with rfl | rfl
    · exact hEnclosed pair hPair
    · rw [(hKinds pair hPair).2] at hStart
      cases hStart
  · rintro ⟨found, hFound, hAlternate, hEnclosed⟩
    obtain ⟨pairs, hMarkers, hKinds⟩ := exists_pairs_iff.mpr hAlternate
    refine ⟨_, OldFile.ofText_eq_ok_iff.mpr ⟨pairs, found,
      Style.pairs_eq_ok_iff.mpr ⟨hMarkers, hKinds⟩, hFound, fun pair hPair => ?_, rfl⟩⟩
    refine hEnclosed pair.1 ?_ (hKinds pair hPair).1
    rw [hMarkers]
    exact List.mem_flatMap.mpr ⟨pair, hPair, List.mem_cons_self⟩

/-- When a text is read, and what is read from it.  The marker lines are pairs that frame a content
each.  Every pair begins within exactly one class, the sections of a class are those of its pairs in
their order, and the pairs of all classes are all pairs, each once. -/
theorem ofText_exact (style : Style) (text : Text) :
    ((∃ file, OldFile.ofText style text = .ok file) ↔
      ∃ found, classesOf text = .ok found ∧
        (∃ count, (style.markers text).map Marker.kind =
          (List.replicate count [MarkerKind.start, MarkerKind.finish]).flatten) ∧
        ∀ marker ∈ style.markers text, marker.kind = .start →
          ∃ decl ∈ found, decl.encloses marker.start = true) ∧
    ∀ file, OldFile.ofText style text = .ok file →
      classesOf text = .ok (file.classes.map OldClass.decl) ∧
      ∃ pairs : List (Marker × Marker),
        style.markers text = pairs.flatMap (fun pair => [pair.1, pair.2]) ∧
        (∀ pair ∈ pairs, style.Frames text pair (text.slice pair.1.stop pair.2.start) ∧
          ∃! index : Nat, ∃ old : OldClass, file.classes[index]? = some old ∧
            old.decl.encloses pair.1.start = true) ∧
        (∀ old ∈ file.classes, old.sections =
          (pairs.filter fun pair => old.decl.encloses pair.1.start).map fun pair =>
            ⟨old.decl.name, text.slice pair.1.stop pair.2.start, pair.1.line⟩) ∧
        (file.classes.flatMap fun old =>
          pairs.filter fun pair => old.decl.encloses pair.1.start).Perm pairs := by
  refine ⟨exists_ofText_iff, fun file hFile => ?_⟩
  have hClasses := OldFile.classesOf_eq hFile
  obtain ⟨pairs, found, hPairs, hFound, hEnclosed, rfl⟩ := OldFile.ofText_eq_ok_iff.mp hFile
  have hApart := classesOf_pairwise hFound
  refine ⟨hClasses, pairs, (Style.pairs_eq_ok_iff.mp hPairs).1, fun pair hPair => ⟨?_, ?_⟩, ?_, ?_⟩
  · exact Style.frames_of_mem_pairs hPairs hPair
  · obtain ⟨decl, hDecl, hEncloses⟩ := hEnclosed pair hPair
    obtain ⟨index, hIndex⟩ := List.mem_iff_getElem?.mp hDecl
    refine ⟨index, ⟨_, by rw [List.getElem?_map, hIndex]; rfl, hEncloses⟩, ?_⟩
    rintro other ⟨old, hOld, hAlso⟩
    obtain ⟨otherDecl, hOther, rfl⟩ := Option.map_eq_some_iff.mp (List.getElem?_map ▸ hOld)
    exact index_eq_of_encloses hApart hOther hIndex hAlso hEncloses
  · intro old hOld
    obtain ⟨decl, -, rfl⟩ := List.mem_map.mp hOld
    rfl
  · rw [List.flatMap_map]
    exact flatMap_filter_perm hApart hEnclosed

/-- A line that holds both markers is a start, and a class without start lines has no sections. -/
example : ((OldFile.ofText ⟨[], ['<'], ['>'], [], []⟩
      "class A \x7b\n<>\nint a;\n>\n\x7d\nclass B \x7b\n\x7d\n".toList).toOption.map
        fun file => file.classes.map OldClass.sections) =
    some [[⟨['A'], "int a;\n".toList, 2⟩], []] := by
  decide +kernel

end XdrBindings.Merge
