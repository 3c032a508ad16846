import Mathlib.Data.List.Nodup
import XdrBindings.Proofs.Code.Balance
import XdrBindings.Proofs.Merge.OldFile

/-!
# How far a section reaches

A section goes to the class that the start marker line begins in.  Nothing is asked of the lines
behind: if they close the class, the section goes on outside, with its end marker line or with more
than that, and the file is read all the same.  The brace that closes a class is the first one of
code behind the opening brace that stands at depth 1.  So a section stays within its class exactly
if no such brace stands in its lines.

## Main results

* `stop_le_closing_iff` — what stays within a class.
* `keepsWithin_iff` — the files whose sections stay within their classes.
* `section_stays_within`, `section_reaches_out` — a section that does, and one that does not.
-/

namespace XdrBindings.Merge

open Code

/-! ## The end of a class -/

/-- A class opens outside of all blocks, and its braces match. -/
theorem matches_of_mem_classesOf {text : Text} {classes : List ClassDecl}
    (h : classesOf text = .ok classes) {decl : ClassDecl} (hDecl : decl ∈ classes) :
    depthAt? text decl.opening = some 0 ∧ Matches text decl.opening decl.closing := by
  obtain ⟨-, rfl⟩ := classesOf_eq_ok_iff.mp h
  obtain ⟨site, hSite, rfl⟩ := List.mem_map.mp hDecl
  have hDeclares := declares_of_mem_sitesOf hSite
  exact ⟨hDeclares.outside, hDeclares.closing_matches⟩

/-- Whether a brace that closes an outermost block stands between two positions. -/
def ClosesBlock (text : Text) (start stop : Nat) : Prop :=
  ∃ place, (place, '}') ∈ codeUnits text ∧ start ≤ place ∧ place < stop ∧
    depthAt? text place = some 1

/-! ## Lines of markers -/

theorem Style.le_line_of_mem_markersFrom {style : Style} {line position : Nat} {chunks : List Text}
    {marker : Marker} (h : marker ∈ style.markersFrom line position chunks) :
    line ≤ marker.line := by
  obtain ⟨front, back, hMarkers⟩ := List.append_of_mem h
  obtain ⟨before, -, -, -, -, hLine, -⟩ := Style.exists_of_markersFrom_eq hMarkers
  omega

/-- Marker lines are found from the first to the last. -/
theorem Style.markersFrom_pairwise (style : Style) (line position : Nat) (chunks : List Text) :
    (style.markersFrom line position chunks).Pairwise fun marker later =>
      marker.line < later.line := by
  induction chunks generalizing line position with
  | nil => exact List.Pairwise.nil
  | cons chunk rest ih =>
    rw [markersFrom]
    cases style.markerOf? chunk with
    | none => exact ih _ _
    | some kind =>
      exact List.pairwise_cons.mpr
        ⟨fun later hLater => Style.le_line_of_mem_markersFrom hLater, ih _ _⟩

/-- No two pairs of marker lines start on one line. -/
theorem Style.eq_of_line_eq (style : Style) {text : Text} {pairs : List (Marker × Marker)}
    (h : style.pairs text = .ok pairs) {pair other : Marker × Marker} (hPair : pair ∈ pairs)
    (hOther : other ∈ pairs) (hLine : pair.1.line = other.1.line) : pair = other := by
  obtain ⟨hMarkers, -⟩ := Style.pairs_eq_ok_iff.mp h
  have hAscending := style.markersFrom_pairwise 1 0 text.chunks
  rw [show style.markersFrom 1 0 text.chunks = _ from hMarkers, List.pairwise_flatMap] at hAscending
  have hStarts : pairs.Pairwise fun pair later => pair.1.line < later.1.line :=
    hAscending.2.imp fun hApart => hApart _ List.mem_cons_self _ List.mem_cons_self
  have hDistinct : (pairs.map fun pair => pair.1.line).Nodup :=
    List.pairwise_map.mpr (hStarts.imp Nat.ne_of_lt)
  exact List.inj_on_of_nodup_map hDistinct hPair hOther hLine

/-! ## Sections within their classes -/

/-- Whether every section that is read from a text lies between the braces of its class, with the
start marker line, the content and the end marker line. -/
def Style.KeepsWithin (style : Style) (text : Text) : Prop :=
  ∀ file, OldFile.ofText style text = .ok file →
    ∀ pairs, style.pairs text = .ok pairs →
      ∀ old ∈ file.classes, ∀ part ∈ old.sections,
        ∃ pair ∈ pairs,
          part = ⟨old.decl.name, text.slice pair.1.stop pair.2.start, pair.1.line⟩ ∧
          old.decl.opening < pair.1.start ∧ pair.2.stop ≤ old.decl.closing

/-- A section that begins in a class stays in it unless one of its lines closes the class. -/
theorem stop_le_closing_iff {text : Text} {classes : List ClassDecl}
    (h : classesOf text = .ok classes) {decl : ClassDecl} (hDecl : decl ∈ classes)
    {start stop : Nat} (hStart : decl.encloses start = true) :
    stop ≤ decl.closing ↔ ¬ClosesBlock text start stop := by
  obtain ⟨hOutside, hMatches⟩ := matches_of_mem_classesOf h hDecl
  have hWithin : decl.opening < start ∧ start < decl.closing := by
    simpa [ClassDecl.encloses] using hStart
  constructor
  · rintro hStop ⟨place, hBrace, hPlace, hBefore, hDepth⟩
    obtain ⟨inner, hInner, hDeep⟩ :=
      lt_depthAt?_of_matches hMatches hOutside hBrace (by omega) (by omega)
    rw [hDepth] at hInner
    cases hInner
    omega
  · intro hNone
    by_contra hStop
    obtain ⟨depth, hOpening, hClosing, -⟩ := le_depthAt?_of_matches hMatches
    rw [hOutside] at hOpening
    cases hOpening
    obtain ⟨front, body, back, hUnits, -⟩ := hMatches
    exact hNone ⟨decl.closing, by simp [hUnits], by omega, by omega, hClosing⟩

/-- The sections of a text stay within their classes if and only if, whenever the text is read, no
line of a section closes a class, from the start marker line to the end marker line. -/
theorem keepsWithin_iff (style : Style) (text : Text) :
    style.KeepsWithin text ↔
      ∀ file, OldFile.ofText style text = .ok file →
        ∀ pairs, style.pairs text = .ok pairs →
          ∀ pair ∈ pairs, ¬ClosesBlock text pair.1.start pair.2.stop := by
  constructor
  · intro hKeeps file hFile pairs hPairs pair hPair
    have hReads := hKeeps file hFile pairs hPairs
    obtain ⟨others, found, hOthers, hFound, hEnclosed, rfl⟩ := OldFile.ofText_eq_ok_iff.mp hFile
    obtain rfl : others = pairs := Except.ok.inj (hOthers.symm.trans hPairs)
    obtain ⟨decl, hDecl, hStart⟩ := hEnclosed pair hPair
    have hPart : ⟨decl.name, text.slice pair.1.stop pair.2.start, pair.1.line⟩ ∈
        sectionsWithin text decl others :=
      List.mem_map.mpr ⟨pair, List.mem_filter.mpr ⟨hPair, hStart⟩, rfl⟩
    obtain ⟨other, hOther, hEq, -, hStop⟩ :=
      hReads _ (List.mem_map_of_mem hDecl) _ hPart
    -- the number of the start marker line tells which pair it is
    obtain rfl : pair = other :=
      style.eq_of_line_eq hPairs hPair hOther (congrArg Section.line hEq)
    exact (stop_le_closing_iff hFound hDecl hStart).mp hStop
  · intro hLines file hFile pairs hPairs old hOld part hPart
    have hNone := hLines file hFile pairs hPairs
    obtain ⟨others, found, hOthers, hFound, hEnclosed, rfl⟩ := OldFile.ofText_eq_ok_iff.mp hFile
    obtain rfl : others = pairs := Except.ok.inj (hOthers.symm.trans hPairs)
    obtain ⟨decl, hDecl, rfl⟩ := List.mem_map.mp hOld
    obtain ⟨pair, hMem, rfl⟩ := List.mem_map.mp hPart
    obtain ⟨hPair, hStart⟩ := List.mem_filter.mp hMem
    have hWithin : decl.opening < pair.1.start ∧ pair.1.start < decl.closing := by
      simpa [ClassDecl.encloses] using hStart
    exact ⟨pair, hPair, rfl, hWithin.1,
      (stop_le_closing_iff hFound hDecl hStart).mpr (hNone pair hPair)⟩

/-- A class with a section, and a method with a body in it. -/
def methodInSection : Text :=
  "class A \x7b\n  // CUSTOM_CODE_START\n  int f() \x7b\x7d\n  // CUSTOM_CODE_END\n\x7d\n".toList

/-- A block that is closed within its section does not close the class. -/
theorem section_stays_within :
    (OldFile.ofText .standard methodInSection).toOption.isSome = true ∧
      Style.standard.KeepsWithin methodInSection := by
  refine ⟨by decide +kernel, (keepsWithin_iff _ _).mpr fun file _ pairs hPairs pair hPair => ?_⟩
  have hRead : Style.standard.pairs methodInSection =
      .ok [(⟨.start, 2, 10, 33⟩, ⟨.finish, 4, 46, 67⟩)] := by
    decide +kernel
  have hDeep : ∀ unit ∈ codeUnits methodInSection, unit.2 = '}' → unit.1 < 67 →
      depthAt? methodInSection unit.1 ≠ some 1 := by
    decide +kernel
  obtain rfl := Except.ok.inj (hPairs.symm.trans hRead)
  obtain rfl := List.mem_singleton.mp hPair
  rintro ⟨place, hBrace, -, hStop, hDepth⟩
  exact hDeep (place, '}') hBrace rfl hStop hDepth

/-- The end marker line of a section may stand behind its class, and the brace that closes the class
is then code of the section. -/
theorem section_reaches_out :
    ¬Style.standard.KeepsWithin
      "class A \x7b\n  // CUSTOM_CODE_START\n  int x;\n\x7d\n// CUSTOM_CODE_END\n".toList := by
  intro hKeeps
  have hRead :
      OldFile.ofText .standard
        "class A \x7b\n  // CUSTOM_CODE_START\n  int x;\n\x7d\n// CUSTOM_CODE_END\n".toList =
          .ok ⟨none, [], [⟨⟨['A'], 0, 8, 42, 1⟩, [⟨['A'], "  int x;\n\x7d\n".toList, 2⟩]⟩]⟩ := by
    decide +kernel
  have hPairs :
      Style.standard.pairs
        "class A \x7b\n  // CUSTOM_CODE_START\n  int x;\n\x7d\n// CUSTOM_CODE_END\n".toList =
          .ok [(⟨.start, 2, 10, 33⟩, ⟨.finish, 5, 44, 63⟩)] := by
    decide +kernel
  obtain ⟨pair, hMem, -, -, hStop⟩ :=
    hKeeps _ hRead _ hPairs _ List.mem_cons_self _ List.mem_cons_self
  obtain rfl := List.mem_singleton.mp hMem
  exact absurd hStop (by decide)

end XdrBindings.Merge
