import Mathlib.Data.List.Forall2
import XdrBindings.Files.Parsed

/-!
# Files that fail to parse

A batch shares one symbol table and one count of warnings.  Both are made of the files that parsed,
so a source that fails adds its error to the report and changes nothing else, wherever it stands
among the sources and whatever the others refer to.

## Main results

* `Report.failures_forall₂` — the failures are the outcomes that are errors, in their order.
* `parseFiles_filter` — without the sources that fail, only the failures are gone.
* `parseFiles_isolates` — what is reported of each source, and what a failing source cannot change.
-/

namespace XdrBindings

open Idl

/-! ## Reports -/

namespace Report

variable {ε α : Type}

theorem map_fst_successes (outcomes : List (String × Except ε α)) :
    (successes outcomes).map Prod.fst =
      (outcomes.filter fun outcome => outcome.2.isOk).map Prod.fst := by
  induction outcomes with
  | nil => rfl
  | cons outcome rest ih =>
    obtain ⟨file, value | error⟩ := outcome
    · exact ih
    · exact congrArg (file :: ·) ih

/-- The failures are the outcomes that are errors, in their order. -/
theorem failures_forall₂ (outcomes : List (String × Except ε α)) :
    List.Forall₂ (fun failure outcome => outcome = (failure.1, .error failure.2))
      (failures outcomes) (outcomes.filter fun outcome => !outcome.2.isOk) := by
  induction outcomes with
  | nil => exact .nil
  | cons outcome rest ih =>
    obtain ⟨file, error | value⟩ := outcome
    · exact .cons rfl ih
    · exact ih

theorem successes_filter (outcomes : List (String × Except ε α)) :
    successes (outcomes.filter fun outcome => outcome.2.isOk) = successes outcomes := by
  induction outcomes with
  | nil => rfl
  | cons outcome rest ih =>
    obtain ⟨file, error | value⟩ := outcome
    · exact ih
    · exact congrArg ((file, value) :: ·) ih

theorem failures_filter (outcomes : List (String × Except ε α)) :
    failures (outcomes.filter fun outcome => outcome.2.isOk) = [] := by
  induction outcomes with
  | nil => rfl
  | cons outcome rest ih => obtain ⟨file, error | value⟩ := outcome <;> exact ih

end Report

/-! ## Sources that fail -/

/-- Whether a named source parses on its own. -/
def parses (ink : Ink) (source : String × Text) : Bool := (parse ink source.1 source.2).isOk

/-- What becomes of each source on its own. -/
def outcomesOf (ink : Ink) (sources : List (String × Text)) :
    List (String × Except IdlError File) :=
  sources.map fun source => (source.1, parse ink source.1 source.2)

theorem outcomesOf_filter (ink : Ink) (sources : List (String × Text)) :
    outcomesOf ink (sources.filter (parses ink)) =
      (outcomesOf ink sources).filter fun outcome => outcome.2.isOk := by
  unfold outcomesOf
  rw [List.filter_map]
  rfl

/-- What is made of the outcomes.  Only the report looks at those that are errors. -/
def gather (outcomes : List (String × Except IdlError File)) : ParsedFiles :=
  let files := (Report.successes outcomes).map Prod.snd
  let unresolved := openReferences (resolveEnums files)
  ⟨resolveEnums files, unresolved,
    Report.ofOutcomes outcomes ((files.flatMap File.repeatedNames).length + unresolved.length)⟩

theorem parseFiles_eq_gather (ink : Ink) (sources : List (String × Text)) :
    parseFiles ink sources = gather (outcomesOf ink sources) := rfl

/-- Without the sources that fail, only the failures are gone. -/
theorem parseFiles_filter (ink : Ink) (sources : List (String × Text)) :
    parseFiles ink (sources.filter (parses ink)) =
      { parseFiles ink sources with
        report := { (parseFiles ink sources).report with failed := [] } } := by
  rw [parseFiles_eq_gather, parseFiles_eq_gather, outcomesOf_filter]
  unfold gather Report.ofOutcomes
  dsimp only
  rw [Report.successes_filter, Report.failures_filter]

/-- Each source is reported as it parses on its own, in the order of the sources.  Without the
sources that fail everything but the list of failures stays the same, so two lists of sources that
differ in failing sources only give the same files, unresolved references and warnings. -/
theorem parseFiles_isolates (ink : Ink) (sources : List (String × Text)) :
    (parseFiles ink sources).report.succeeded =
      (sources.filter fun source => (parse ink source.1 source.2).isOk).map Prod.fst ∧
    List.Forall₂ (fun failure source => failure.1 = source.1 ∧
        parse ink source.1 source.2 = .error failure.2)
      (parseFiles ink sources).report.failed
      (sources.filter fun source => !(parse ink source.1 source.2).isOk) ∧
    parseFiles ink (sources.filter fun source => (parse ink source.1 source.2).isOk) =
      { parseFiles ink sources with
        report := { (parseFiles ink sources).report with failed := [] } } ∧
    ∀ others : List (String × Text),
      (others.filter fun source => (parse ink source.1 source.2).isOk) =
        (sources.filter fun source => (parse ink source.1 source.2).isOk) →
      (parseFiles ink others).files = (parseFiles ink sources).files ∧
      (parseFiles ink others).unresolved = (parseFiles ink sources).unresolved ∧
      (parseFiles ink others).report.warnings = (parseFiles ink sources).report.warnings := by
  refine ⟨?_, ?_, parseFiles_filter ink sources, fun others hSame => ?_⟩
  · show (Report.successes (outcomesOf ink sources)).map Prod.fst = _
    rw [Report.map_fst_successes, outcomesOf, List.filter_map, List.map_map]
    rfl
  · have hFailures := Report.failures_forall₂ (outcomesOf ink sources)
    rw [outcomesOf, List.filter_map, List.forall₂_map_right_iff] at hFailures
    refine hFailures.imp fun failure source hOutcome => ?_
    obtain ⟨hName, hError⟩ := Prod.mk.inj hOutcome
    exact ⟨hName.symm, hError⟩
  · have hFiltered : parseFiles ink (others.filter (parses ink)) =
        parseFiles ink (sources.filter (parses ink)) := congrArg (parseFiles ink) hSame
    rw [parseFiles_filter, parseFiles_filter] at hFiltered
    have hFiles := congrArg ParsedFiles.files hFiltered
    have hUnresolved := congrArg ParsedFiles.unresolved hFiltered
    have hWarnings := congrArg (fun parsed => parsed.report.warnings) hFiltered
    exact ⟨hFiles, hUnresolved, hWarnings⟩

/-- A constant of a source that fails is not found by the other source. -/
example : (parseFiles .plain [("a.x", "const C = 1; const".toList),
      ("b.x", "enum B \x7b X = C \x7d;".toList)]).unresolved =
    [⟨"b.x", "B", "X", "C", 1⟩] := by
  decide +kernel

end XdrBindings
