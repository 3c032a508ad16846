import XdrBindings.Proofs.Merge.Recognised
import XdrBindings.Proofs.Merge.SpliceAll
import XdrBindings.Proofs.Text.Occurrences

/-!
# A merge that does not recognise what it wrote

Splicing sections adds start markers to a text, and carrying classes over takes none away.  So
where the old file has neither imports nor a header, merging again gives the same text only if
no section is spliced and no class is carried over a second time.

## Main results

* `Style.splice_eq_self_or`, `Style.spliceAll_eq_self_or` — splicing leaves a text as it is or
  adds start markers.
* `Stages.isRecognised_of_text_eq` — without imports and header, a merge whose text comes back
  recognises what it wrote.
-/

namespace XdrBindings.Merge

open Code

namespace Style

/-- A style whose start marker has no brace and does not end with a blank, and whose label can be
seen. -/
structure IsVisible (style : Style) : Prop where
  opening : '{' ∉ style.startMarker
  closing : '}' ∉ style.startMarker
  last : style.startMarker.getLast?.any (!Text.isBlank ·) = true
  label : Text.isBlankText style.carriedLabel = false

theorem isVisible_standard : standard.IsVisible where
  opening := by decide
  closing := by decide
  last := by decide
  label := by decide

variable {style : Style}

theorem IsVisible.ne_nil (hStyle : style.IsVisible) : style.startMarker ≠ [] := by
  intro hNil
  have hLast := hStyle.last
  rw [hNil] at hLast
  cases hLast

/-- The number of start markers in a text. -/
def startMarkers (style : Style) (text : Text) : Nat :=
  Text.occurrences style.startMarker text

/-- A text has the start markers of a class body and of what stands around it. -/
theorem startMarkers_around (hStyle : style.IsVisible) (front body back : Text) :
    style.startMarkers (front ++ '{' :: (body ++ '}' :: back)) =
      style.startMarkers front + (style.startMarkers body + style.startMarkers back) := by
  unfold startMarkers
  rw [Text.occurrences_append_cons hStyle.ne_nil hStyle.opening,
    Text.occurrences_append_cons hStyle.ne_nil hStyle.closing]

theorem startMarkers_splicedBody_pos (hStyle : style.IsVisible) (body : Text)
    {sections : List Section} (hSome : sections ≠ []) :
    0 < style.startMarkers (style.splicedBody body sections) := by
  obtain ⟨part, rest, rfl⟩ := List.exists_cons_of_ne_nil hSome
  apply Text.occurrences_pos hStyle.ne_nil
  rw [Text.contains_iff]
  refine ⟨Text.trimEnd body ++ ['\n'] ++ (['\n'] ++ style.memberIndent),
    ['\n'] ++ (part.content.lines.flatMap (style.indentLine (commonIndent part.content.lines)) ++
      (style.markerLine style.endMarker ++ rest.flatMap fun part =>
        style.writeSection part.content)), ?_⟩
  unfold splicedBody writeSection markerLine
  simp

/-! ## Splicing -/

/-- Splicing leaves a text as it is, because the class is not there or holds a start marker, or
it adds start markers. -/
theorem splice_eq_self_or (hStyle : style.IsVisible) {text target other : Text}
    {sections : List Section} (hSome : sections ≠ [])
    (h : style.splice text target sections = .ok other) :
    (other = text ∧ ∀ found, classesOf text = .ok found → ∀ body ∈ bodyOf? text found target,
      Text.contains body style.startMarker = true) ∨
        style.startMarkers text < style.startMarkers other := by
  obtain ⟨classes, hClasses, -⟩ := bind_eq_ok_iff.mp h
  have hFound := generatedClasses_eq_ok_iff.mp hClasses
  cases hDecl : classes.find? fun decl => decl.name == target with
  | none =>
    left
    rw [splice_of_find?_eq_none hClasses hDecl] at h
    refine ⟨(Except.ok.inj h).symm, ?_⟩
    intro found hSame body hBody
    obtain rfl := Except.ok.inj (hFound.symm.trans hSame)
    unfold bodyOf? at hBody
    rw [hDecl] at hBody
    cases hBody
  | some decl =>
    have hBodyOf : bodyOf? text classes target = some (decl.body text) := by
      unfold bodyOf?
      rw [hDecl]
      rfl
    cases hMarked : (decl.body text).contains style.startMarker with
    | true =>
      left
      rw [splice_eq_self hFound hBodyOf hMarked] at h
      refine ⟨(Except.ok.inj h).symm, ?_⟩
      intro found hSame body hBody
      obtain rfl := Except.ok.inj (hFound.symm.trans hSame)
      rw [hBodyOf] at hBody
      rw [← Option.some.inj hBody]
      exact hMarked
    | false =>
      right
      rw [splice_of_find?_eq_some hFound hDecl hMarked] at h
      obtain ⟨front, back, hText, hOther⟩ :=
        exists_withBody_eq hFound (List.mem_of_find?_eq_some hDecl)
      have hNone : style.startMarkers (decl.body text) = 0 := Text.occurrences_eq_zero hMarked
      have hNew := startMarkers_splicedBody_pos hStyle
        (withoutMethods sections (decl.body text)) hSome
      rw [← Except.ok.inj h, hOther, startMarkers_around hStyle]
      generalize decl.body text = body at *
      rw [hText, startMarkers_around hStyle]
      omega

/-- Splicing takes no start marker away. -/
theorem startMarkers_le_of_spliceAll (hStyle : style.IsVisible) {generated : List ClassDecl}
    {olds : List OldClass} {text other : Text}
    (h : style.spliceAll generated text olds = .ok other) :
    style.startMarkers text ≤ style.startMarkers other := by
  induction olds generalizing text with
  | nil =>
    rw [Except.ok.inj h]
  | cons old rest ih =>
    rw [spliceAll] at h
    split at h
    · split at h
      · exact ih h
      · rename_i hSections
        obtain ⟨spliced, hSplice, hRest⟩ := bind_eq_ok_iff.mp h
        have hSome : old.sections ≠ [] := by
          intro hNil
          rw [hNil] at hSections
          exact hSections rfl
        have hLater := ih hRest
        rcases splice_eq_self_or hStyle hSome hSplice with ⟨hSame, -⟩ | hMore
        · rw [hSame] at hLater
          exact hLater
        · omega
    · exact ih h

/-- Splicing all sections leaves a text as it is, because they stand there already, or it adds
start markers. -/
theorem spliceAll_eq_self_or (hStyle : style.IsVisible) {text : Text} {found : List ClassDecl}
    (hFound : classesOf text = .ok found) {olds : List OldClass} {other : Text}
    (h : style.spliceAll found text olds = .ok other) :
    (other = text ∧ ∀ old ∈ olds, style.matchOf? found old.decl.name ≠ none →
      style.Finds text found old) ∨ style.startMarkers text < style.startMarkers other := by
  induction olds with
  | nil => exact .inl ⟨(Except.ok.inj h).symm, nofun⟩
  | cons old rest ih =>
    rw [spliceAll] at h
    -- what is found for the rest and for the first class is found for all
    have hAll (hRest : style.spliceAll found text rest = .ok other)
        (hFirst : style.matchOf? found old.decl.name ≠ none → style.Finds text found old) :
        (other = text ∧ ∀ second ∈ old :: rest, style.matchOf? found second.decl.name ≠ none →
          style.Finds text found second) ∨ style.startMarkers text < style.startMarkers other := by
      rcases ih hRest with ⟨hSame, hOthers⟩ | hMore
      · refine .inl ⟨hSame, ?_⟩
        intro second hSecond hMatch
        rcases List.mem_cons.mp hSecond with rfl | hMem
        · exact hFirst hMatch
        · exact hOthers second hMem hMatch
      · exact .inr hMore
    cases hTarget : style.matchOf? found old.decl.name with
    | none =>
      rw [hTarget] at h
      exact hAll h fun hMatch => absurd hTarget hMatch
    | some target =>
      rw [hTarget] at h
      dsimp only at h
      split at h
      · rename_i hNone
        apply hAll h
        intro _
        refine ⟨target, hTarget, ?_⟩
        intro hSome
        exact absurd (List.isEmpty_iff.mp hNone) hSome
      · rename_i hSections
        obtain ⟨spliced, hSplice, hRest⟩ := bind_eq_ok_iff.mp h
        have hSome : old.sections ≠ [] := by
          intro hNil
          rw [hNil] at hSections
          exact hSections rfl
        rcases splice_eq_self_or hStyle hSome hSplice with ⟨rfl, hMarked⟩ | hMore
        · apply hAll hRest
          intro _
          obtain ⟨decl, body, -, -, hBody⟩ := exists_bodyOf?_of_matchOf? rfl hTarget
          exact ⟨target, hTarget, fun _ => ⟨body, hBody, hMarked found hFound body hBody⟩⟩
        · have hLater := startMarkers_le_of_spliceAll hStyle hRest
          right
          omega

/-! ## Carrying over -/

/-- Carrying classes over takes no start marker away and changes the text. -/
theorem carryOver_grows (hStyle : style.IsVisible) {text existing other : Text}
    {carried : List OldClass} (h : style.carryOver text existing carried = .ok other) :
    style.startMarkers text ≤ style.startMarkers other ∧ other ≠ text := by
  obtain ⟨generated, -, hOther⟩ := carryOver_eq_ok_iff.mp h
  have hText : ∃ front back, other = Text.trimEnd text ++ (front ++ (style.carriedLabel ++ back)) :=
    ⟨_, _, by rw [hOther]; simp only [List.append_assoc]; rfl⟩
  obtain ⟨front, back, rfl⟩ := hText
  constructor
  · have hParts := Text.le_occurrences_append style.startMarker (Text.trimEnd text)
      (front ++ (style.carriedLabel ++ back))
    rw [Text.occurrences_trimEnd hStyle.last] at hParts
    unfold startMarkers
    omega
  · intro hSame
    obtain ⟨blanks, hBlanks, hAll⟩ := Text.exists_trimEnd text
    have hTail : front ++ (style.carriedLabel ++ back) = blanks :=
      List.append_cancel_left (hSame.trans hBlanks)
    have hLabel : Text.isBlankText style.carriedLabel = true := by
      apply List.all_eq_true.mpr
      intro c hc
      apply hAll
      rw [← hTail]
      simp [hc]
    rw [hStyle.label] at hLabel
    cases hLabel

end Style

/-! ## Merging again -/

/-- Without imports and header, a second merge that gives the same text finds all old classes. -/
theorem Stages.finds_of_text_eq {style : Style} (hStyle : style.IsVisible) {text existing : Text}
    (again : Stages style text existing) (hImports : importsOf existing = [])
    (hHeader : headerOf existing = none) (hSame : again.text = text) :
    ∀ old ∈ again.old.classes, style.Finds text again.classes old := by
  obtain ⟨hOldHeader, hOldImports⟩ := OldFile.header_imports_eq again.read
  rw [hImports] at hOldImports
  rw [hHeader] at hOldHeader
  have hText : again.text = again.carried := by
    rw [text_eq, hOldHeader]
    unfold imported
    rw [hOldImports]
    rfl
  have hCarried : again.carried = text := hText.symm.trans hSame
  have hCarrying := again.carrying
  rw [hCarried] at hCarrying
  have hSpliced := Style.spliceAll_eq_self_or hStyle again.found again.splicing
  split at hCarrying
  · rename_i hNone
    rcases hSpliced with ⟨-, hFinds⟩ | hMore
    · intro old hOld
      apply hFinds old hOld
      intro hMatch
      have hMissing : old ∈ style.missing again.classes again.old.classes :=
        Style.mem_missing_iff.mpr ⟨hOld, hMatch⟩
      rw [List.isEmpty_iff.mp hNone] at hMissing
      cases hMissing
    · rw [Except.ok.inj hCarrying] at hMore
      omega
  · obtain ⟨hMarkers, hOther⟩ := Style.carryOver_grows hStyle hCarrying
    rcases hSpliced with ⟨hSame, -⟩ | hMore
    · exact absurd hSame.symm hOther
    · omega

/-- Without imports and header, a merge whose text comes back recognises what it wrote. -/
theorem Stages.isRecognised_of_text_eq {style : Style} (hStyle : style.IsVisible)
    {generated existing : Text} {stages : Stages style generated existing}
    (hImports : importsOf existing = []) (hHeader : headerOf existing = none)
    {again : Stages style stages.text existing} (hSame : again.text = stages.text) :
    stages.IsRecognised := by
  obtain ⟨hOldHeader, hOldImports⟩ := OldFile.header_imports_eq stages.read
  rw [hImports] at hOldImports
  rw [hHeader] at hOldHeader
  have hImported : stages.imported = stages.carried := by
    unfold imported
    rw [hOldImports]
    rfl
  have hFinds := again.finds_of_text_eq hStyle hImports hHeader hSame
  have hOld : again.old = stages.old := Except.ok.inj (again.read.symm.trans stages.read)
  rw [hOld] at hFinds
  refine ⟨⟨again.classes, ?_, hFinds⟩, absurd hImported, absurd hImported, ?_, ?_⟩
  · rw [again.found]
    rfl
  · rw [hOldHeader]
    nofun
  · rw [hOldHeader]
    nofun

end XdrBindings.Merge
