import XdrBindings.Proofs.Merge.Growth

/-!
# Merging again

Merging what a merge gives with the same old file once more changes nothing, if the merge
recognises what it wrote.  An import with a tab behind its first word is not recognised.

## Main results

* `Style.mergesAgain_iff_exists_again` — merging again, by the stages of both merges.
* `merges_again` — when the second merge gives the text of the first.
-/

namespace XdrBindings.Merge

open Code

/-- If a merge succeeds, merging its text with the same old file gives that text again. -/
def Style.MergesAgain (style : Style) (generated existing : Text) : Prop :=
  ∀ merged, style.merge generated (some existing) = .ok merged →
    (style.merge merged.text (some existing)).map Merged.text = .ok merged.text

theorem Style.mergesAgain_iff_exists_again {style : Style} {generated existing : Text} :
    style.MergesAgain generated existing ↔ ∀ stages : Stages style generated existing,
      ∃ again : Stages style stages.text existing, again.text = stages.text := by
  constructor
  · intro hAgain stages
    have hSecond := hAgain stages.merged (mergeExisting_eq_ok_iff.mpr ⟨stages, rfl⟩)
    change (style.mergeExisting stages.text existing).map Merged.text = .ok stages.text at hSecond
    cases hMerged : style.mergeExisting stages.text existing with
    | error refusal =>
      rw [hMerged] at hSecond
      cases hSecond
    | ok merged =>
      obtain ⟨again, rfl⟩ := mergeExisting_eq_ok_iff.mp hMerged
      rw [hMerged] at hSecond
      exact ⟨again, Except.ok.inj hSecond⟩
  · intro hStages merged hMerge
    obtain ⟨stages, rfl⟩ := mergeExisting_eq_ok_iff.mp hMerge
    obtain ⟨again, hAgain⟩ := hStages stages
    have hSecond : style.merge stages.merged.text (some existing) = .ok again.merged :=
      mergeExisting_eq_ok_iff.mpr ⟨again, rfl⟩
    rw [hSecond]
    show Except.ok again.text = Except.ok stages.text
    rw [hAgain]

/-- A merge that recognises what it wrote changes nothing when it is run again.  Where the old
file has neither imports nor a header, no other merge does. -/
theorem merges_again {generated existing : Text} :
    ((∀ stages : Stages .standard generated existing, stages.IsRecognised) →
        Style.standard.MergesAgain generated existing) ∧
      (importsOf existing = [] → headerOf existing = none →
        Style.standard.MergesAgain generated existing →
          ∀ stages : Stages .standard generated existing, stages.IsRecognised) := by
  rw [Style.mergesAgain_iff_exists_again]
  constructor
  · intro hRecognised stages
    exact (hRecognised stages).exists_again
  · intro hImports hHeader hAgain stages
    obtain ⟨again, hSame⟩ := hAgain stages
    exact Stages.isRecognised_of_text_eq Style.isVisible_standard hImports hHeader hSame

/-- Header, imports, a section and a class that is carried over; and a section alone. -/
theorem merges_again_all :
    (∃ generated existing, generated = "class XdrA \x7b\x7d\n".toList ∧
      existing = ("// A\nimport 'a';\nclass A \x7b\n// CUSTOM_CODE_START\nA a; // \x7d\n" ++
        "// CUSTOM_CODE_END\n\x7d\nclass B \x7b\n// CUSTOM_CODE_START\nB b;\n" ++
        "// CUSTOM_CODE_END\n\x7d\n").toList ∧
      (Stages.find? .standard generated existing).isSome = true ∧
      Style.standard.MergesAgain generated existing) ∧
    ∃ generated existing, generated = "class XdrA \x7b\x7d\n".toList ∧
      existing =
        "class A \x7b\n// CUSTOM_CODE_START\nA a;\n// CUSTOM_CODE_END\n\x7d\n".toList ∧
      importsOf existing = [] ∧ headerOf existing = none ∧
      Style.standard.MergesAgain generated existing ∧
      ∃ stages : Stages .standard generated existing, stages.IsRecognised := by
  refine ⟨⟨_, _, rfl, rfl, ?_⟩, _, _, rfl, rfl, ?_⟩
  · rw [String.toList_append, String.toList_append, String.toList_ofList, String.toList_ofList,
      String.toList_ofList, String.toList_ofList]
    refine ⟨by decide +kernel, merges_again.1 ?_⟩
    intro stages
    rw [Stages.eq stages ((Stages.find? .standard _ _).get (by decide +kernel))]
    refine ⟨?_, ?_, ?_, ?_, ?_⟩
    · decide +kernel
    · decide +kernel
    · decide +kernel
    · decide +kernel
    · decide +kernel
  · rw [String.toList_ofList, String.toList_ofList]
    have hAgain : Style.standard.MergesAgain "class XdrA \x7b\x7d\n".toList
        "class A \x7b\n// CUSTOM_CODE_START\nA a;\n// CUSTOM_CODE_END\n\x7d\n".toList := by
      rw [String.toList_ofList, String.toList_ofList]
      intro merged hMerge
      obtain ⟨stages, rfl⟩ := mergeExisting_eq_ok_iff.mp hMerge
      rw [Stages.eq stages ((Stages.find? .standard _ _).get (by decide +kernel))]
      decide +kernel
    rw [String.toList_ofList, String.toList_ofList] at hAgain
    refine ⟨by decide +kernel, by decide +kernel, hAgain,
      (Stages.find? .standard _ _).get (by decide +kernel), ?_⟩
    exact merges_again.2 (by decide +kernel) (by decide +kernel) hAgain _

/-- An import with a tab behind its first word is written once more by the second merge. -/
theorem import_written_twice :
    ¬Style.standard.MergesAgain "class XdrA \x7b\n\x7d\n".toList
      "import\t'a.dart';\n\nclass XdrA \x7b\n\x7d\n".toList := by
  rw [String.toList_ofList, String.toList_ofList]
  intro hAgain
  have hSecond := hAgain _ (mergeExisting_eq_ok_iff.mpr
    ⟨(Stages.find? .standard _ _).get (by decide +kernel), rfl⟩)
  revert hSecond
  decide +kernel

end XdrBindings.Merge
