import XdrBindings.Files.Report
import XdrBindings.Idl.Parsing
import XdrBindings.Idl.Resolution

/-!
# Parsing many files

Every source is parsed on its own; then references in enumerations are followed across
all files that parsed. A repeated definition and a reference that stays open count as
warnings.
-/

namespace XdrBindings

open Idl

/-- The files that parsed, with references filled in, and what was found on the way. -/
structure ParsedFiles where
  files : List File
  unresolved : List Unresolved
  report : Report IdlError

/-- Parses named sources. -/
def parseFiles (ink : Ink) (sources : List (String × Text)) : ParsedFiles :=
  let outcomes := sources.map fun (name, source) => (name, parse ink name source)
  let files := (Report.successes outcomes).map Prod.snd
  let resolved := resolveEnums files
  let unresolved := openReferences resolved
  let repeats := (files.flatMap File.repeatedNames).length
  { files := resolved
    unresolved
    report := Report.ofOutcomes outcomes (repeats + unresolved.length) }

end XdrBindings
