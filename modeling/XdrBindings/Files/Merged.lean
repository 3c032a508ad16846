import XdrBindings.Files.Directory
import XdrBindings.Files.Report
import XdrBindings.Merge.Basic

/-!
# Merging many files

Every generated file is merged with the file of its name in a directory. A file that is
not there has nothing to keep; one that is there and can not be read makes the merge
fail, so that nothing in it is lost.
-/

namespace XdrBindings

open Merge

/-- The path of a file below a directory, as messages name it. -/
def joinPath (directory name : String) : String :=
  if Text.startsWith name.toList ['/'] then name else directory ++ "/" ++ name

/-- Merges a generated text with the file of its name below `directory`, where `files`
is what stands there. -/
def mergeStored (style : Style) (directory : String) (files : Directory)
    (name : String) (generated : Text) : Except Refusal Merged :=
  match files.read name.toList with
  | .ok existing => style.merge generated existing
  | .error reason => .error (.existing (.unreadable (joinPath directory name) reason))

/-- The merged files and the report on all of them. -/
structure MergedFiles where
  outputs : List (String × Merged)
  report : Report Refusal

/-- Merges generated files with the files of their names below `directory`. -/
def mergeFiles (style : Style) (directory : String) (files : Directory)
    (generated : List (String × Text)) : MergedFiles :=
  let outcomes := generated.map fun (name, text) =>
    (name, mergeStored style directory files name text)
  let outputs := Report.successes outcomes
  { outputs
    report := Report.ofOutcomes outcomes (outputs.flatMap fun (_, merged) => merged.notes).length }

end XdrBindings
