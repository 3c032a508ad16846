import XdrBindings.Proofs.Merge.ReadSections
import XdrBindings.Proofs.Merge.SplicedParts

/-!
# Sections of the next merge

The text that a merge gives is read as an old file by the next merge.  A class of it that was
generated matches itself, its sections are those that were spliced into it, and the next merge
splices them into the same generated body: it writes what it read.

## Main results

* `Style.HoldsSections.exists_ofText` — which texts can be read as old files.
* `Style.spliceSource?_of_mem` — sections go into the class that they were read from.
* `Style.bodyWithSections_again` — what is spliced into a class is spliced again.
-/

namespace XdrBindings.Merge

open Code

/-! ## Old files that can be read -/

/-- The marker lines of a text pair up, and each pair stands within the body of a class. -/
def Style.HoldsSections (style : Style) (text : Text) : Prop :=
  ∃ pairs ∈ (style.pairs text).toOption, ∃ classes ∈ (classesOf text).toOption,
    ∀ pair ∈ pairs, ∃ decl ∈ classes,
      decl.encloses pair.1.start = true ∧ pair.2.stop ≤ decl.closing

instance (style : Style) (text : Text) : Decidable (style.HoldsSections text) :=
  inferInstanceAs (Decidable (∃ pairs ∈ (style.pairs text).toOption,
    ∃ classes ∈ (classesOf text).toOption, ∀ pair ∈ pairs, ∃ decl ∈ classes,
      decl.encloses pair.1.start = true ∧ pair.2.stop ≤ decl.closing))

/-- A text that holds sections can be read, and sections end in the classes that they begin in. -/
theorem Style.HoldsSections.exists_ofText {style : Style} {text : Text}
    (h : style.HoldsSections text) : ∃ file, OldFile.ofText style text = .ok file ∧
      ∀ old ∈ file.classes, style.EndsWithin text old := by
  obtain ⟨pairs, hPairs, classes, hClasses, hAll⟩ := h
  have hPairs := eq_ok_of_mem_toOption hPairs
  have hClasses := eq_ok_of_mem_toOption hClasses
  have hEnclosed : ∀ pair ∈ pairs, ∃ decl ∈ classes, decl.encloses pair.1.start = true := by
    intro pair hPair
    obtain ⟨decl, hDecl, hEncloses, -⟩ := hAll pair hPair
    exact ⟨decl, hDecl, hEncloses⟩
  have hFile := OldFile.ofText_eq_ok_iff.mpr ⟨pairs, classes, hPairs, hClasses, hEnclosed, rfl⟩
  refine ⟨_, hFile, fun old hOld others hOthers pair hPair hEncloses => ?_⟩
  obtain rfl : pairs = others :=
    Except.ok.inj (hPairs.symm.trans (eq_ok_of_mem_toOption hOthers))
  obtain ⟨decl, hDecl, hOther, hStop⟩ := hAll pair hPair
  have hMem : old.decl ∈ classes := by
    have hFound := Except.ok.inj ((OldFile.classesOf_eq hFile).symm.trans hClasses)
    exact hFound ▸ List.mem_map_of_mem hOld
  rwa [eq_of_encloses hClasses hMem hDecl hEncloses hOther]

/-! ## Sections that are read alike -/

/-- Indented as a member, a section reads as before. -/
structure Style.ReadsAlike (style : Style) (content : Text) : Prop where
  /-- No line ends with a carriage return of its own. -/
  returns : ∀ line ∈ content.lines, line.getLast? ≠ some '\r'
  /-- The methods that the section declares are found as before. -/
  methods : declaredMethods (style.shown content) = declaredMethods content

instance (style : Style) (content : Text) : Decidable (style.ReadsAlike content) :=
  decidable_of_iff ((∀ line ∈ content.lines, line.getLast? ≠ some '\r') ∧
    declaredMethods (style.shown content) = declaredMethods content)
    ⟨fun h => ⟨h.1, h.2⟩, fun h => ⟨h.returns, h.methods⟩⟩

/-! ## The classes of the next merge -/

namespace Style

section

variable {style : Style} {generated : List ClassDecl}

theorem mem_of_spliceSource? {olds : List OldClass} {name body : Text} {old : OldClass}
    (h : style.spliceSource? generated olds name body = some old) : old ∈ olds := by
  unfold spliceSource? at h
  split at h
  · cases h
  · exact List.mem_of_find?_eq_some h

/-- A generated name matches itself. -/
theorem matchOf?_of_mem {name : Text} (h : name ∈ generated.map ClassDecl.name) :
    style.matchOf? generated name = some name := by
  obtain ⟨decl, hDecl, rfl⟩ := List.mem_map.mp h
  exact if_pos (List.any_eq_true.mpr ⟨decl, hDecl, beq_self_eq_true decl.name⟩)

variable {first last : List OldClass}
  (hFirst : first.map (fun old => old.decl.name) = generated.map ClassDecl.name)
  (hDistinct : (generated.map ClassDecl.name).Nodup)
  (hLast : ∀ old ∈ last, style.matchOf? generated old.decl.name = none)

include hFirst hDistinct hLast

/-- Sections go into the class that they were read from. -/
theorem spliceSource?_of_mem {old : OldClass} (hOld : old ∈ first) {body : Text}
    (hBody : Text.contains body style.startMarker = false) :
    style.spliceSource? generated (first ++ last) old.decl.name body =
      if old.sections = [] then none else some old := by
  have hOwn : ∀ other ∈ first, style.matchOf? generated other.decl.name = some other.decl.name :=
    fun other hMem => matchOf?_of_mem (hFirst ▸ List.mem_map_of_mem hMem)
  have hOnly : ∀ other ∈ first ++ last,
      style.spliceTarget? generated other = some old.decl.name → other = old := by
    intro other hOther hTarget
    unfold spliceTarget? at hTarget
    split at hTarget
    · cases hTarget
    · rcases List.mem_append.mp hOther with hMem | hMem
      · rw [hOwn other hMem] at hTarget
        exact List.inj_on_of_nodup_map (hFirst ▸ hDistinct) hMem hOld (Option.some.inj hTarget)
      · rw [hLast other hMem] at hTarget
        cases hTarget
  have hTarget : style.spliceTarget? generated old =
      if old.sections = [] then none else some old.decl.name := by
    unfold spliceTarget?
    rw [hOwn old hOld]
    simp only [List.isEmpty_iff]
  unfold spliceSource?
  rw [hBody, if_neg (by decide)]
  cases hFind : (first ++ last).find? fun old' =>
      style.spliceTarget? generated old' == some old.decl.name with
  | none =>
    have hNone := List.find?_eq_none.mp hFind old (List.mem_append_left _ hOld)
    rw [hTarget] at hNone
    split at hNone
    · rename_i hSections
      rw [if_pos hSections]
    · simp at hNone
  | some other =>
    have hOther : style.spliceTarget? generated other = some old.decl.name := by
      simpa using List.find?_some hFind
    obtain rfl := hOnly other (List.mem_of_find?_eq_some hFind) hOther
    rw [hTarget] at hOther
    split at hOther
    · cases hOther
    · rename_i hSections
      rw [if_neg hSections]

end

/-! ## The sections of the next merge -/

variable {style : Style} {generated : List ClassDecl} {olds : List OldClass}
  {text name body : Text} {file : OldFile} {again : OldClass}
  (hStyle : style.IsPlain) (hTells : style.TellsMarkers)
  (hFile : OldFile.ofText style text = .ok file) (hAgain : again ∈ file.classes)

include hStyle hTells hFile hAgain

/-- A body with sections is read back with the same sections, as they are shown. -/
theorem contents_of_bodyWithSections {old : OldClass}
    (hSource : style.spliceSource? generated olds name body = some old)
    (hBody : again.decl.body text = style.bodyWithSections generated olds name body)
    (hUnmarked : Text.contains body style.startMarker = false)
    (hLines : ∀ part ∈ old.sections, ∀ line ∈ part.content.lines, style.markerOf? line = none) :
    again.sections.map Section.content =
      (old.sections.map Section.content).map style.shown := by
  unfold bodyWithSections at hBody
  rw [hSource] at hBody
  have hSome : old.sections.map Section.content ≠ [] := fun hNil =>
    sections_ne_nil (of_spliceSource? hSource) (List.map_eq_nil_iff.mp hNil)
  have hUpper : Text.contains (Text.trimEnd (withoutMethods old.sections body))
      style.startMarker = false := by
    obtain ⟨blanks, hText, -⟩ := Text.exists_trimEnd (withoutMethods old.sections body)
    have hSomeMark : style.startMarker ≠ [] := by
      intro hNil
      have hHead := hStyle.startMark.head?
      rw [hNil] at hHead
      cases hHead
    have hNone := contains_withoutMethods hSomeMark hStyle.startMark.2 old.sections hUnmarked
    refine Bool.eq_false_iff.mpr fun hContains => ?_
    obtain ⟨front, back, hMarked⟩ := Text.contains_iff.mp hContains
    rw [hText, hMarked, Text.contains_iff.mpr ⟨front, back ++ blanks, by simp⟩] at hNone
    cases hNone
  refine contents_of_spliced hStyle hTells hFile hAgain hSome ?_ hUpper ?_
  · rw [hBody, List.flatMap_map]
    rfl
  · intro content hContent
    obtain ⟨part, hPart, rfl⟩ := List.mem_map.mp hContent
    exact hLines part hPart

/-- What is spliced into a class is spliced again. -/
theorem bodyWithSections_again (hWithin : style.EndsWithin text again)
    (hBody : again.decl.body text = style.bodyWithSections generated olds name body)
    (hOwn : Text.contains body style.startMarker = false →
      style.spliceSource? generated file.classes name body =
        if again.sections = [] then none else some again)
    (hSections : ∀ old ∈ style.spliceSource? generated olds name body, ∀ part ∈ old.sections,
      style.ReadsAlike part.content ∧ ∀ line ∈ part.content.lines, style.markerOf? line = none)
    (hInto : style.GoInto generated olds name body) :
    style.bodyWithSections generated file.classes name body =
        style.bodyWithSections generated olds name body ∧
      style.GoInto generated file.classes name body := by
  cases hMarked : Text.contains body style.startMarker with
  | true =>
    -- a generated body with a marker is left as it is
    have hNone (olds : List OldClass) : style.spliceSource? generated olds name body = none :=
      if_pos hMarked
    unfold bodyWithSections GoInto
    rw [hNone, hNone]
    exact ⟨rfl, nofun⟩
  | false =>
    have hOwn := hOwn hMarked
    cases hSource : style.spliceSource? generated olds name body with
    | none =>
      have hSame : style.bodyWithSections generated olds name body = body := by
        unfold bodyWithSections
        rw [hSource]
      have hNil := sections_eq_nil hFile hAgain hWithin (by rw [hBody, hSame, hMarked])
      rw [if_pos hNil] at hOwn
      unfold bodyWithSections GoInto
      rw [hOwn, hSource]
      exact ⟨rfl, nofun⟩
    | some old =>
      rw [hSource] at hSections
      have hAlike := hSections old rfl
      have hContents := contents_of_bodyWithSections hStyle hTells hFile hAgain hSource hBody
        hMarked fun part hPart => (hAlike part hPart).2
      have hNe : again.sections ≠ [] := by
        intro hNil
        rw [hNil, List.map_nil, eq_comm, List.map_eq_nil_iff, List.map_eq_nil_iff] at hContents
        exact sections_ne_nil (of_spliceSource? hSource) hContents
      rw [if_neg hNe] at hOwn
      obtain ⟨hClosed, hClosedContents⟩ := hInto old hSource
      have hSame {α : Type} (read : Text → List α)
          (hRead : ∀ part ∈ old.sections, read (style.shown part.content) = read part.content) :
          again.sections.flatMap (fun part => read part.content) =
            old.sections.flatMap fun part => read part.content := by
        rw [← List.flatMap_map Section.content read, hContents, List.flatMap_map, List.flatMap_map]
        exact List.flatMap_congr hRead
      have hMethods : withoutMethods again.sections body = withoutMethods old.sections body := by
        unfold withoutMethods
        rw [hSame declaredMethods fun part hPart => (hAlike part hPart).1.methods]
      have hWritten := hSame style.writeSection fun part hPart =>
        writeSection_shown hStyle.isLegible (hAlike part hPart).1.returns
      constructor
      · unfold bodyWithSections
        rw [hOwn, hSource]
        dsimp only
        unfold splicedBody
        rw [hMethods, hWritten]
      · intro other hOther
        obtain rfl : again = other := Option.some.inj (hOwn.symm.trans hOther)
        refine ⟨hMethods ▸ hClosed, fun part hPart => ?_⟩
        have hMem : part.content ∈ (old.sections.map Section.content).map style.shown := by
          rw [← hContents]
          exact List.mem_map_of_mem hPart
        obtain ⟨content, hContent, hShown⟩ := List.mem_map.mp hMem
        obtain ⟨source, hPartOld, rfl⟩ := List.mem_map.mp hContent
        have hIndented := isClosed_indentLines hStyle
          (fun _ hLine => Text.newline_not_mem_of_mem_lines hLine) (hClosedContents source hPartOld)
        rw [flatMap_indentLine] at hIndented
        rw [← hShown, lines_shown hStyle.isLegible (hAlike source hPartOld).1.returns]
        exact hIndented

end Style

end XdrBindings.Merge
