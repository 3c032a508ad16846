import XdrBindings.Merge.Basic
import XdrBindings.Proofs.Merge.Splice

/-!
# Splicing the sections of all classes

The old classes are taken in turn, and the sections of each go into the generated class that
it matches.  If no two of them match the same class then every splicing finds the body that
was generated, whatever went into other classes before, and what it makes of that body stays.

## Main results

* `Style.exists_bodyOf?_of_matchOf?` — the body of a matched class.
* `Style.spliceAll_bodies` — the bodies behind all splicings.
-/

namespace XdrBindings.Merge

open Code

namespace Style

/-- The generated class that the sections of an old class go into. -/
def spliceTarget? (style : Style) (generated : List ClassDecl) (old : OldClass) :
    Option Text :=
  if old.sections.isEmpty then none else style.matchOf? generated old.decl.name

theorem exists_bodyOf?_of_matchOf? {style : Style} {generated classes : List ClassDecl}
    {text name target : Text} (hNames : classes.map ClassDecl.name = generated.map ClassDecl.name)
    (h : style.matchOf? generated name = some target) :
    ∃ decl body, classes.find? (fun decl => decl.name == target) = some decl ∧
      decl.body text = body ∧ bodyOf? text classes target = some body := by
  have hMem := matchOf?_mem h
  rw [← hNames] at hMem
  obtain ⟨decl, hDecl, hName⟩ := List.mem_map.mp hMem
  have hSome : (classes.find? fun decl => decl.name == target).isSome := by
    rw [List.find?_isSome]
    exact ⟨decl, hDecl, by rw [hName]; exact beq_self_eq_true target⟩
  obtain ⟨first, hFirst⟩ := Option.isSome_iff_exists.mp hSome
  refine ⟨first, first.body text, hFirst, rfl, ?_⟩
  unfold bodyOf?
  rw [hFirst]
  rfl

/-- What a class body has to be for the sections of an old class: without a start marker,
and closed when the methods that the sections declare are taken out. -/
structure Takes (style : Style) (body : Text) (old : OldClass) : Prop where
  unmarked : body.contains style.startMarker = false
  closed : IsClosed (withoutMethods old.sections body)
  contents : ∀ part ∈ old.sections, IsClosed (Text.ofLines part.content.lines)

theorem spliceAll_cons_none {style : Style} {generated : List ClassDecl} {old : OldClass}
    (h : style.spliceTarget? generated old = none) (text : Text) (rest : List OldClass) :
    style.spliceAll generated text (old :: rest) = style.spliceAll generated text rest := by
  unfold spliceTarget? at h
  rw [spliceAll]
  split at h
  · rename_i hEmpty
    cases style.matchOf? generated old.decl.name with
    | none => rfl
    | some target => simp only [hEmpty, if_true]
  · rw [h]

theorem spliceAll_cons_some {style : Style} {generated : List ClassDecl} {old : OldClass}
    {target : Text} (h : style.spliceTarget? generated old = some target) {text spliced : Text}
    (hSplice : style.splice text target old.sections = .ok spliced) (rest : List OldClass) :
    style.spliceAll generated text (old :: rest) = style.spliceAll generated spliced rest := by
  unfold spliceTarget? at h
  rw [spliceAll]
  split at h
  · cases h
  · rename_i hSections
    rw [h]
    simp only [hSections, hSplice]
    rfl

/-- The sections of an old class go into the class that it matches and change no other. -/
theorem splice_bodies {style : Style} (hStyle : style.IsPlain) {generated classes : List ClassDecl}
    {text target : Text} (hClasses : classesOf text = .ok classes)
    (hNames : classes.map ClassDecl.name = generated.map ClassDecl.name) {old : OldClass}
    (hTarget : style.spliceTarget? generated old = some target)
    (hTakes : ∀ body, bodyOf? text classes target = some body → style.Takes body old) :
    ∃ body spliced found, bodyOf? text classes target = some body ∧
      style.splice text target old.sections = .ok spliced ∧ classesOf spliced = .ok found ∧
      found.map ClassDecl.name = classes.map ClassDecl.name ∧
      bodyOf? spliced found target =
        some (style.splicedBody (withoutMethods old.sections body) old.sections) ∧
      ∀ name, name ≠ target → bodyOf? spliced found name = bodyOf? text classes name := by
  unfold spliceTarget? at hTarget
  split at hTarget
  · cases hTarget
  · rename_i hSections
    obtain ⟨decl, body, hFind, rfl, hBody⟩ := exists_bodyOf?_of_matchOf? hNames hTarget
    have hReady := hTakes _ hBody
    have hSome : old.sections ≠ [] := by
      intro hNil
      rw [hNil] at hSections
      exact hSections rfl
    have hClosed := isClosed_spliced hStyle hReady.closed hReady.contents
      fun hNil => absurd hNil hSome
    have hSplice := splice_of_find?_eq_some hClasses hFind hReady.unmarked old.sections
    obtain ⟨found, hFound, hFoundNames, hInto, hOthers⟩ :=
      bodyOf?_withBody hClasses hFind hClosed
    exact ⟨_, _, found, hBody, hSplice, hFound, hFoundNames, hInto, hOthers⟩

/-- If no two old classes with sections match the same generated class, the sections of each
go into the body that was generated. -/
theorem spliceAll_bodies {style : Style} (hStyle : style.IsPlain) {generated : List ClassDecl}
    {olds : List OldClass} (hDistinct : (olds.filterMap (style.spliceTarget? generated)).Nodup)
    {text : Text} {classes : List ClassDecl} (hClasses : classesOf text = .ok classes)
    (hNames : classes.map ClassDecl.name = generated.map ClassDecl.name)
    (hTakes : ∀ old ∈ olds, ∀ target, style.spliceTarget? generated old = some target →
      ∀ body, bodyOf? text classes target = some body → style.Takes body old) :
    ∃ spliced found, style.spliceAll generated text olds = .ok spliced ∧
      classesOf spliced = .ok found ∧
      found.map ClassDecl.name = classes.map ClassDecl.name ∧
      (∀ old ∈ olds, ∀ target, style.spliceTarget? generated old = some target →
        ∀ body, bodyOf? text classes target = some body →
          bodyOf? spliced found target =
            some (style.splicedBody (withoutMethods old.sections body) old.sections)) ∧
      ∀ name, name ∉ olds.filterMap (style.spliceTarget? generated) →
        bodyOf? spliced found name = bodyOf? text classes name := by
  induction olds generalizing text classes with
  | nil =>
    refine ⟨text, classes, rfl, hClasses, rfl, ?_, fun _ _ => rfl⟩
    intro old hOld
    cases hOld
  | cons old rest ih =>
    have hRestTakes : ∀ other ∈ rest, ∀ target, style.spliceTarget? generated other = some target →
        ∀ body, bodyOf? text classes target = some body → style.Takes body other :=
      fun other hMem => hTakes other (List.mem_cons_of_mem _ hMem)
    cases hTarget : style.spliceTarget? generated old with
    | none =>
      rw [List.filterMap_cons_none hTarget] at hDistinct ⊢
      obtain ⟨spliced, found, hSplice, hFound, hFoundNames, hInto, hOthers⟩ :=
        ih hDistinct hClasses hNames hRestTakes
      refine ⟨spliced, found, ?_, hFound, hFoundNames, ?_, hOthers⟩
      · rw [spliceAll_cons_none hTarget]
        exact hSplice
      · intro other hOther target hSome
        rcases List.mem_cons.mp hOther with rfl | hMem
        · rw [hTarget] at hSome
          cases hSome
        · exact hInto other hMem target hSome
    | some target =>
      rw [List.filterMap_cons_some hTarget] at hDistinct ⊢
      obtain ⟨hNew, hRestDistinct⟩ := List.nodup_cons.mp hDistinct
      have hNe {other : OldClass} {second : Text} (hMem : other ∈ rest)
          (hSecond : style.spliceTarget? generated other = some second) : second ≠ target := by
        rintro rfl
        exact hNew (List.mem_filterMap.mpr ⟨other, hMem, hSecond⟩)
      obtain ⟨body, first, firstFound, hBody, hFirst, hFirstFound, hFirstNames, hInto, hKept⟩ :=
        splice_bodies hStyle hClasses hNames hTarget (hTakes old List.mem_cons_self target hTarget)
      -- the classes that are still to come have the bodies that were generated
      have hStillTakes : ∀ other ∈ rest, ∀ second,
          style.spliceTarget? generated other = some second →
          ∀ body, bodyOf? first firstFound second = some body → style.Takes body other := by
        intro other hMem second hSecond body hSecondBody
        rw [hKept second (hNe hMem hSecond)] at hSecondBody
        exact hRestTakes other hMem second hSecond body hSecondBody
      obtain ⟨spliced, found, hSplice, hFound, hFoundNames, hRestInto, hRestOthers⟩ :=
        ih hRestDistinct hFirstFound (hFirstNames.trans hNames) hStillTakes
      refine ⟨spliced, found, ?_, hFound, hFoundNames.trans hFirstNames, ?_, ?_⟩
      · rw [spliceAll_cons_some hTarget hFirst]
        exact hSplice
      · intro other hOther second hSecond otherBody hOtherBody
        rcases List.mem_cons.mp hOther with rfl | hMem
        · obtain rfl : target = second := Option.some.inj (hTarget.symm.trans hSecond)
          obtain rfl : body = otherBody := Option.some.inj (hBody.symm.trans hOtherBody)
          rw [hRestOthers target hNew]
          exact hInto
        · apply hRestInto other hMem second hSecond otherBody
          rw [hKept second (hNe hMem hSecond)]
          exact hOtherBody
      · intro name hName
        have hNotTarget : name ≠ target := by
          rintro rfl
          exact hName List.mem_cons_self
        have hNotRest : name ∉ rest.filterMap (style.spliceTarget? generated) :=
          fun hMem => hName (List.mem_cons_of_mem _ hMem)
        rw [hRestOthers name hNotRest, hKept name hNotTarget]

end Style

end XdrBindings.Merge
