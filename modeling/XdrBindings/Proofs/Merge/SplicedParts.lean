import Mathlib.Data.List.Nodup
import XdrBindings.Proofs.Code.ClassParts
import XdrBindings.Proofs.Merge.Growth

/-!
# The text with the sections

With the sections spliced in, a generated text consists of the same classes with the same
text between them.  The body of a class is the generated one, or it is spliced with the
sections of the first old class that has sections and matches it.

## Main results

* `Style.spliceAll_assembled` — the text with the sections, class by class.
* `Style.isClosed_bodyWithSections` — the bodies in it are closed.
-/

namespace XdrBindings.Merge

open Code

/-! ## One class -/

/-- The class at a place of a text that is put together, as it is found there. -/
theorem exists_decl_assembled {first last : List ClassPart} {part : ClassPart} {tail : Text}
    (hParts : AreParts (first ++ part :: last)) (hTail : sitesOf tail = [])
    (hFirst : part.name ∉ first.map ClassPart.name) {classes : List ClassDecl}
    (hClasses : classesOf (assembled (first ++ part :: last) tail) = .ok classes) :
    ∃ decl, classes.find? (fun decl => decl.name == part.name) = some decl ∧
      decl.body (assembled (first ++ part :: last) tail) = part.body ∧
      ∀ body, withBody (assembled (first ++ part :: last) tail) decl body =
        assembled (first ++ part.withBody body :: last) tail := by
  have hFound := classesOf_assembled hParts hTail hClasses
  rw [List.map_append, List.map_cons] at hFound
  obtain ⟨before, others, hSplit, hBefore, hOthers⟩ := List.map_eq_append_iff.mp hFound
  obtain ⟨decl, behind, rfl, hDecl, -⟩ := List.map_eq_cons_iff.mp hOthers
  obtain ⟨hName, hBody⟩ := Prod.ext_iff.mp hDecl
  have hNames : before.map ClassDecl.name = first.map ClassPart.name := by
    have hPairs := congrArg (List.map Prod.fst) hBefore
    rw [List.map_map, List.map_map] at hPairs
    exact hPairs
  have hLength : before.length = first.length := by
    have hLengths := congrArg List.length hNames
    rwa [List.length_map, List.length_map] at hLengths
  obtain ⟨earlier, site, later, hSites, hEarlier, hSite⟩ := exists_site hClasses hSplit
  refine ⟨decl, ?_, hBody, ?_⟩
  · rw [hSplit, List.find?_append, List.find?_cons_of_pos (by simpa using hName)]
    have hNone : before.find? (fun decl => decl.name == part.name) = none := by
      rw [List.find?_eq_none]
      intro other hOther hEq
      apply hFirst
      rw [← hNames, ← eq_of_beq hEq]
      exact List.mem_map_of_mem hOther
    rw [hNone, Option.none_or]
  · intro body
    rw [← hSite]
    exact withBody_assembled hParts hSites (hEarlier.trans hLength) _ body

namespace Style

/-! ## The bodies with their sections -/

/-- The old class whose sections are spliced into a generated class. -/
def spliceSource? (style : Style) (generated : List ClassDecl) (olds : List OldClass)
    (name body : Text) : Option OldClass :=
  if body.contains style.startMarker then none
  else olds.find? fun old => style.spliceTarget? generated old == some name

/-- A generated body without the methods that sections replace. -/
def bodyWithoutReplaced (style : Style) (generated : List ClassDecl) (olds : List OldClass)
    (name body : Text) : Text :=
  match style.spliceSource? generated olds name body with
  | none => body
  | some old => withoutMethods old.sections body

/-- A generated body with the sections that are spliced into it. -/
def bodyWithSections (style : Style) (generated : List ClassDecl) (olds : List OldClass)
    (name body : Text) : Text :=
  match style.spliceSource? generated olds name body with
  | none => body
  | some old => style.splicedBody (withoutMethods old.sections body) old.sections

variable {style : Style} {generated : List ClassDecl} {olds : List OldClass} {name body : Text}

theorem of_spliceSource? {old : OldClass}
    (h : style.spliceSource? generated olds name body = some old) :
    style.spliceTarget? generated old = some name := by
  unfold spliceSource? at h
  split at h
  · cases h
  · simpa using List.find?_some h

theorem sections_ne_nil {old : OldClass} (h : style.spliceTarget? generated old = some name) :
    old.sections ≠ [] := by
  intro hNil
  unfold spliceTarget? at h
  rw [hNil] at h
  cases h

/-- More old classes are asked for a source only where there was none. -/
theorem spliceSource?_append (more : List OldClass) :
    style.spliceSource? generated (olds ++ more) name body =
      (style.spliceSource? generated olds name body).or
        (style.spliceSource? generated more name body) := by
  unfold spliceSource?
  split
  · rfl
  · exact List.find?_append

/-- A body is marked behind the splicing if it was marked, or is spliced with sections. -/
theorem contains_bodyWithSections (hVisible : style.IsVisible) :
    Text.contains (style.bodyWithSections generated olds name body) style.startMarker =
      (Text.contains body style.startMarker ||
        (style.spliceSource? generated olds name body).isSome) := by
  unfold bodyWithSections
  cases hSource : style.spliceSource? generated olds name body with
  | none => simp
  | some old =>
    have hPos := startMarkers_splicedBody_pos hVisible (withoutMethods old.sections body)
      (sections_ne_nil (of_spliceSource? hSource))
    cases hMarked : Text.contains
        (style.splicedBody (withoutMethods old.sections body) old.sections) style.startMarker with
    | true => simp
    | false =>
      rw [startMarkers, Text.occurrences_eq_zero hMarked] at hPos
      cases hPos

/-- The sections that are spliced into a body are closed, and so is the body without the
methods that they replace. -/
def GoInto (style : Style) (generated : List ClassDecl) (olds : List OldClass)
    (name body : Text) : Prop :=
  ∀ old ∈ style.spliceSource? generated olds name body,
    IsClosed (withoutMethods old.sections body) ∧
      ∀ part ∈ old.sections, IsClosed (Text.ofLines part.content.lines)

instance (style : Style) (generated : List ClassDecl) (olds : List OldClass)
    (name body : Text) : Decidable (style.GoInto generated olds name body) :=
  inferInstanceAs (Decidable (∀ old ∈ style.spliceSource? generated olds name body,
    IsClosed (withoutMethods old.sections body) ∧
      ∀ part ∈ old.sections, IsClosed (Text.ofLines part.content.lines)))

theorem GoInto.of_append {more : List OldClass}
    (h : style.GoInto generated (olds ++ more) name body) :
    style.GoInto generated olds name body := by
  intro old hOld
  apply h
  rw [spliceSource?_append, Option.mem_def.mp hOld]
  exact Option.mem_some_self old

theorem isClosed_bodyWithSections (hStyle : style.IsPlain) (hBody : IsClosed body)
    (hInto : style.GoInto generated olds name body) :
    IsClosed (style.bodyWithSections generated olds name body) := by
  unfold bodyWithSections
  cases hSource : style.spliceSource? generated olds name body with
  | none => exact hBody
  | some old =>
    obtain ⟨hClosed, hContents⟩ := hInto old hSource
    exact isClosed_spliced hStyle hClosed hContents fun hNil =>
      absurd hNil (sections_ne_nil (of_spliceSource? hSource))

theorem bodyWithSections_of_spliceTarget?_ne {old : OldClass}
    (h : style.spliceTarget? generated old ≠ some name) :
    style.bodyWithSections generated (olds ++ [old]) name body =
      style.bodyWithSections generated olds name body := by
  have hNone : style.spliceSource? generated [old] name body = none := by
    unfold spliceSource?
    split
    · rfl
    · simpa using h
  unfold bodyWithSections
  rw [spliceSource?_append, hNone, Option.or_none]

/-- A body that is marked stays as it is. -/
theorem bodyWithSections_concat_of_marked (hVisible : style.IsVisible) (old : OldClass)
    (h : Text.contains (style.bodyWithSections generated olds name body) style.startMarker =
      true) :
    style.bodyWithSections generated (olds ++ [old]) name body =
      style.bodyWithSections generated olds name body := by
  have hSource : style.spliceSource? generated (olds ++ [old]) name body =
      style.spliceSource? generated olds name body := by
    rw [contains_bodyWithSections hVisible, Bool.or_eq_true] at h
    rcases h with hMarked | hSome
    · unfold spliceSource?
      rw [if_pos hMarked, if_pos hMarked]
    · obtain ⟨source, hSource⟩ := Option.isSome_iff_exists.mp hSome
      rw [spliceSource?_append, hSource, Option.some_or]
  unfold bodyWithSections
  rw [hSource]

/-- A body that is not marked is the generated one; the sections of an old class that matches
it go into it. -/
theorem bodyWithSections_concat_of_unmarked (hVisible : style.IsVisible) {old : OldClass}
    (hTarget : style.spliceTarget? generated old = some name)
    (h : Text.contains (style.bodyWithSections generated olds name body) style.startMarker =
      false) :
    style.bodyWithSections generated olds name body = body ∧
      style.bodyWithSections generated (olds ++ [old]) name body =
        style.splicedBody (withoutMethods old.sections body) old.sections := by
  rw [contains_bodyWithSections hVisible, Bool.or_eq_false_iff] at h
  obtain ⟨hUnmarked, hNone⟩ := h
  have hNone := Option.isNone_iff_eq_none.mp (Option.isSome_eq_false_iff.mp hNone)
  have hLast : style.spliceSource? generated [old] name body = some old := by
    simp [spliceSource?, hUnmarked, hTarget]
  constructor
  · unfold bodyWithSections
    rw [hNone]
  · unfold bodyWithSections
    rw [spliceSource?_append, hNone, Option.none_or, hLast]

/-! ## The whole text -/

/-- The parts of a generated text with the sections of old classes. -/
def partsWithSections (style : Style) (generated : List ClassDecl) (olds : List OldClass)
    (parts : List ClassPart) : List ClassPart :=
  parts.map fun part => part.withBody (style.bodyWithSections generated olds part.name part.body)

theorem names_partsWithSections (parts : List ClassPart) :
    (style.partsWithSections generated olds parts).map ClassPart.name =
      parts.map ClassPart.name := by
  rw [partsWithSections, List.map_map]
  rfl

section

variable {parts : List ClassPart} {tail : Text}

theorem areParts_partsWithSections (hStyle : style.IsPlain) (hParts : AreParts parts)
    (hInto : ∀ part ∈ parts, style.GoInto generated olds part.name part.body) :
    AreParts (style.partsWithSections generated olds parts) :=
  hParts.map fun part hPart => by
    obtain ⟨keyword, hIs⟩ := hParts part hPart
    exact isClosed_bodyWithSections hStyle hIs.closed (hInto part hPart)

/-- One more old class. -/
theorem splice_partsWithSections (hStyle : style.IsPlain) (hVisible : style.IsVisible)
    (hParts : AreParts parts) (hTail : sitesOf tail = [])
    (hEnd : ∃ depth pending, walkBehind tail = .outside depth pending)
    (hDistinct : (parts.map ClassPart.name).Nodup)
    (hInto : ∀ part ∈ parts, style.GoInto generated olds part.name part.body)
    {old : OldClass} {target : Text} (hTarget : style.spliceTarget? generated old = some target)
    (hMem : target ∈ parts.map ClassPart.name) :
    style.splice (assembled (style.partsWithSections generated olds parts) tail) target
        old.sections =
      .ok (assembled (style.partsWithSections generated (olds ++ [old]) parts) tail) := by
  obtain ⟨part, hPart, rfl⟩ := List.mem_map.mp hMem
  obtain ⟨first, last, rfl⟩ := List.append_of_mem hPart
  have hAre := areParts_partsWithSections hStyle hParts hInto
  obtain ⟨classes, hClasses⟩ : ∃ classes, classesOf
      (assembled (style.partsWithSections generated olds (first ++ part :: last)) tail) =
        .ok classes :=
    ⟨_, classesOf_eq_ok_iff.mpr ⟨(walkBehind_assembled hAre).mpr hEnd, rfl⟩⟩
  rw [List.map_append, List.map_cons, List.nodup_middle, List.nodup_cons] at hDistinct
  have hOthers : ∀ other, other ∈ first ∨ other ∈ last → other.name ≠ part.name := by
    intro other hOther hEq
    apply hDistinct.1
    rw [← hEq, List.mem_append]
    exact hOther.imp List.mem_map_of_mem List.mem_map_of_mem
  have hSame : ∀ other, other ∈ first ∨ other ∈ last →
      other.withBody (style.bodyWithSections generated (olds ++ [old]) other.name other.body) =
        other.withBody (style.bodyWithSections generated olds other.name other.body) := by
    intro other hOther
    rw [bodyWithSections_of_spliceTarget?_ne]
    rw [hTarget]
    exact fun hEq => hOthers other hOther (Option.some.inj hEq).symm
  have hNew : style.partsWithSections generated (olds ++ [old]) (first ++ part :: last) =
      style.partsWithSections generated olds first ++
        part.withBody (style.bodyWithSections generated (olds ++ [old]) part.name part.body) ::
          style.partsWithSections generated olds last := by
    unfold partsWithSections
    rw [List.map_append, List.map_cons,
      List.map_congr_left fun other hOther => hSame other (.inl hOther),
      List.map_congr_left fun other hOther => hSame other (.inr hOther)]
  have hNow : style.partsWithSections generated olds (first ++ part :: last) =
      style.partsWithSections generated olds first ++
        part.withBody (style.bodyWithSections generated olds part.name part.body) ::
          style.partsWithSections generated olds last := by
    unfold partsWithSections
    rw [List.map_append, List.map_cons]
  rw [hNow] at hAre hClasses ⊢
  have hFirst : part.name ∉ (style.partsWithSections generated olds first).map
      ClassPart.name := by
    rw [names_partsWithSections]
    exact fun hMem => hDistinct.1 (List.mem_append_left _ hMem)
  obtain ⟨decl, hFind, hBody, hWith⟩ := exists_decl_assembled hAre hTail hFirst hClasses
  rw [hNew]
  cases hMarked : Text.contains (style.bodyWithSections generated olds part.name part.body)
      style.startMarker with
  | true =>
    rw [bodyWithSections_concat_of_marked hVisible old hMarked]
    refine splice_eq_self hClasses ?_ hMarked _
    have hFind : classes.find? (fun decl => decl.name == part.name) = some decl := hFind
    unfold bodyOf?
    rw [hFind]
    exact congrArg some hBody
  | false =>
    obtain ⟨hOwn, hSpliced⟩ := bodyWithSections_concat_of_unmarked hVisible hTarget hMarked
    have hUnmarked := (congrArg (Text.contains · style.startMarker) hBody).trans hMarked
    have hSplice := splice_of_find?_eq_some hClasses hFind hUnmarked old.sections
    rw [hWith, hBody, ClassPart.withBody_body, hOwn] at hSplice
    rw [hSpliced, hOwn]
    exact hSplice

/-- The text that the sections are spliced into is the generated one with other bodies. -/
theorem spliceAll_assembled (hStyle : style.IsPlain) (hVisible : style.IsVisible)
    (hParts : AreParts parts) (hTail : sitesOf tail = [])
    (hEnd : ∃ depth pending, walkBehind tail = .outside depth pending)
    (hDistinct : (parts.map ClassPart.name).Nodup)
    (hNames : generated.map ClassDecl.name = parts.map ClassPart.name)
    (hInto : ∀ part ∈ parts, style.GoInto generated olds part.name part.body) :
    style.spliceAll generated (assembled parts tail) olds =
      .ok (assembled (style.partsWithSections generated olds parts) tail) := by
  -- induction on the classes that are left, behind those that are done
  have key (rest seen : List OldClass) (hAll : seen ++ rest = olds) :
      style.spliceAll generated (assembled (style.partsWithSections generated seen parts) tail)
          rest = .ok (assembled (style.partsWithSections generated olds parts) tail) := by
    induction rest generalizing seen with
    | nil =>
      rw [← hAll, List.append_nil]
      rfl
    | cons old rest ih =>
      have hNext := ih (seen ++ [old]) (by rw [List.append_assoc]; exact hAll)
      have hSeen : ∀ part ∈ parts, style.GoInto generated seen part.name part.body :=
        fun part hPart => (hAll ▸ hInto part hPart).of_append
      cases hTarget : style.spliceTarget? generated old with
      | none =>
        have hSame : style.partsWithSections generated (seen ++ [old]) parts =
            style.partsWithSections generated seen parts := by
          refine List.map_congr_left fun part _ => ?_
          rw [bodyWithSections_of_spliceTarget?_ne (by rw [hTarget]; nofun)]
        rw [spliceAll_cons_none hTarget, ← hSame]
        exact hNext
      | some target =>
        have hMem : target ∈ parts.map ClassPart.name := by
          unfold spliceTarget? at hTarget
          split at hTarget
          · cases hTarget
          · rw [← hNames]
            exact matchOf?_mem hTarget
        rw [spliceAll_cons_some hTarget (splice_partsWithSections hStyle hVisible hParts hTail
          hEnd hDistinct hSeen hTarget hMem)]
        exact hNext
  have hStart : style.partsWithSections generated [] parts = parts := by
    have hNone (name body : Text) : style.bodyWithSections generated [] name body = body := by
      simp [bodyWithSections, spliceSource?]
    unfold partsWithSections
    simp only [hNone]
    exact List.map_id' parts
  have hAll := key olds [] rfl
  rwa [hStart] at hAll

end

end Style

end XdrBindings.Merge
