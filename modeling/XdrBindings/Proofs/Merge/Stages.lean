import XdrBindings.Merge.Basic
import XdrBindings.Proofs.Merge.Splice

/-!
# The texts that a merge goes through

A merge that succeeds has read the old file and found the generated classes.  It then goes
through four texts: with the sections spliced in, with the classes carried over behind them,
with the imports reconciled, and with the header of the old file.

## Main results

* `Style.carryOver_eq_ok_iff` — the text with the classes that are carried over.
* `mergeExisting_eq_ok_iff` — what a merge gives is the last of the texts it goes through.
* `Stages.eq` — there is one way through a merge.
-/

namespace XdrBindings.Merge

open Code

namespace Style

/-- The renames in the classes that are carried over behind a text with given classes. -/
def renames (style : Style) (carried : List OldClass) (generated : List ClassDecl) :
    List (Text × Text) :=
  style.carriedRenames carried ++ style.generatedRenames generated

theorem carryOver_eq_ok_iff {style : Style} {text existing other : Text}
    {carried : List OldClass} :
    style.carryOver text existing carried = .ok other ↔
      ∃ generated, classesOf text = .ok generated ∧
        other = Text.trimEnd text ++ ['\n', '\n'] ++ style.carriedLabel ++ ['\n'] ++
          renameAll (style.renames carried generated)
            (Text.join ['\n', '\n'] (carried.map fun old => old.decl.source existing)) ++
          ['\n'] := by
  unfold carryOver
  rw [bind_eq_ok_iff]
  constructor
  · rintro ⟨generated, hGenerated, hOther⟩
    exact ⟨generated, generatedClasses_eq_ok_iff.mp hGenerated, (Except.ok.inj hOther).symm⟩
  · rintro ⟨generated, hFound, rfl⟩
    exact ⟨generated, generatedClasses_eq_ok_iff.mpr hFound, rfl⟩

/-- The old classes that match no generated class. -/
def missing (style : Style) (generated : List ClassDecl) (olds : List OldClass) :
    List OldClass :=
  olds.filter fun old => (style.matchOf? generated old.decl.name).isNone

theorem mem_missing_iff {style : Style} {generated : List ClassDecl} {olds : List OldClass}
    {old : OldClass} : old ∈ style.missing generated olds ↔
      old ∈ olds ∧ style.matchOf? generated old.decl.name = none := by
  unfold missing
  rw [List.mem_filter, Option.isNone_iff_eq_none]

end Style

/-! ## Stages -/

/-- A way through a merge: what is read of both files, and the texts with the sections and
with the classes that are carried over. -/
structure Stages (style : Style) (generated existing : Text) where
  old : OldFile
  classes : List ClassDecl
  spliced : Text
  carried : Text
  read : OldFile.ofText style existing = .ok old
  found : classesOf generated = .ok classes
  splicing : style.spliceAll classes generated old.classes = .ok spliced
  carrying : (if (style.missing classes old.classes).isEmpty then .ok spliced
    else style.carryOver spliced existing (style.missing classes old.classes)) = .ok carried

namespace Stages

variable {style : Style} {generated existing : Text}

/-- The classes that are carried over. -/
def missing (stages : Stages style generated existing) : List OldClass :=
  style.missing stages.classes stages.old.classes

/-- The text with the imports of the old file. -/
def imported (stages : Stages style generated existing) : Text :=
  if stages.old.imports.isEmpty then stages.carried
  else withImports stages.old.imports stages.carried

/-- The text with the header of the old file. -/
def text (stages : Stages style generated existing) : Text :=
  match stages.old.header with
  | none => stages.imported
  | some header => withHeader header stages.imported

/-- What the merge gives. -/
def merged (stages : Stages style generated existing) : Merged :=
  ⟨stages.text, stages.missing.map fun old => old.decl.name, style.carriedNotes stages.missing⟩

/-- The way through a merge, if it does not refuse. -/
def find? (style : Style) (generated existing : Text) :
    Option (Stages style generated existing) :=
  match hRead : OldFile.ofText style existing with
  | .error _ => none
  | .ok old =>
    match hFound : classesOf generated with
    | .error _ => none
    | .ok classes =>
      match hSplicing : style.spliceAll classes generated old.classes with
      | .error _ => none
      | .ok spliced =>
        match hCarrying : if (style.missing classes old.classes).isEmpty then .ok spliced
            else style.carryOver spliced existing (style.missing classes old.classes) with
        | .error _ => none
        | .ok carried => some ⟨old, classes, spliced, carried, hRead, hFound, hSplicing, hCarrying⟩

theorem eq (first second : Stages style generated existing) : first = second := by
  obtain ⟨old, classes, spliced, carried, hRead, hFound, hSplicing, hCarrying⟩ := first
  obtain ⟨_, _, _, _, hRead', hFound', hSplicing', hCarrying'⟩ := second
  obtain rfl := Except.ok.inj (hRead.symm.trans hRead')
  obtain rfl := Except.ok.inj (hFound.symm.trans hFound')
  obtain rfl := Except.ok.inj (hSplicing.symm.trans hSplicing')
  obtain rfl := Except.ok.inj (hCarrying.symm.trans hCarrying')
  rfl

end Stages

/-- A merge gives what its stages end with. -/
theorem mergeExisting_eq_ok_iff {style : Style} {generated existing : Text} {merged : Merged} :
    style.mergeExisting generated existing = .ok merged ↔
      ∃ stages : Stages style generated existing, merged = stages.merged := by
  unfold Style.mergeExisting
  constructor
  · intro h
    obtain ⟨old, hOld, h⟩ := bind_eq_ok_iff.mp h
    obtain ⟨classes, hClasses, h⟩ := bind_eq_ok_iff.mp h
    obtain ⟨spliced, hSpliced, h⟩ := bind_eq_ok_iff.mp h
    have hFound := generatedClasses_eq_ok_iff.mp hClasses
    dsimp only at h
    split at h
    · rename_i hNone
      obtain ⟨carried, hCarried, h⟩ := bind_eq_ok_iff.mp h
      exact ⟨⟨old, classes, spliced, carried, hOld, hFound, hSpliced,
        (if_pos hNone).trans hCarried⟩, (Except.ok.inj h).symm⟩
    · rename_i hSome
      obtain ⟨carried, hCarried, h⟩ := bind_eq_ok_iff.mp h
      exact ⟨⟨old, classes, spliced, carried, hOld, hFound, hSpliced,
        (if_neg hSome).trans hCarried⟩, (Except.ok.inj h).symm⟩
  · rintro ⟨stages, rfl⟩
    have hCarrying := stages.carrying
    refine bind_eq_ok_iff.mpr ⟨stages.old, stages.read, ?_⟩
    refine bind_eq_ok_iff.mpr
      ⟨stages.classes, generatedClasses_eq_ok_iff.mpr stages.found, ?_⟩
    refine bind_eq_ok_iff.mpr ⟨stages.spliced, stages.splicing, ?_⟩
    dsimp only
    split
    · rename_i hNone
      rw [Style.missing, if_pos hNone] at hCarrying
      exact bind_eq_ok_iff.mpr ⟨stages.carried, hCarrying, rfl⟩
    · rename_i hSome
      rw [Style.missing, if_neg hSome] at hCarrying
      exact bind_eq_ok_iff.mpr ⟨stages.carried, hCarrying, rfl⟩

end XdrBindings.Merge
