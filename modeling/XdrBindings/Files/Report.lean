/-!
# Reports on many files

A batch treats every file on its own: one that fails is recorded and never stops the
others.
-/

namespace XdrBindings

/-- Which files of a batch succeeded, which failed and why, and how many findings
there were that are no failures. -/
structure Report (ε : Type) where
  succeeded : List String
  failed : List (String × ε)
  warnings : Nat

namespace Report

variable {ε α : Type}

/-- The results of the files that succeeded. -/
def successes (outcomes : List (String × Except ε α)) : List (String × α) :=
  outcomes.filterMap fun (file, outcome) =>
    match outcome with
    | .ok value => some (file, value)
    | .error _ => none

/-- The errors of the files that failed. -/
def failures (outcomes : List (String × Except ε α)) : List (String × ε) :=
  outcomes.filterMap fun (file, outcome) =>
    match outcome with
    | .ok _ => none
    | .error error => some (file, error)

/-- The report on the outcomes of all files. -/
def ofOutcomes (outcomes : List (String × Except ε α)) (warnings : Nat) : Report ε where
  succeeded := (successes outcomes).map Prod.fst
  failed := failures outcomes
  warnings

/-- Whether no file failed. -/
def isSuccess (report : Report ε) : Bool := report.failed.isEmpty

/-- The report in words, with the message of every failure. -/
def display (message : ε → String) (report : Report ε) : String :=
  toString report.succeeded.length ++ " succeeded, " ++ toString report.failed.length ++
    " failed, " ++ toString report.warnings ++ " warnings" ++
    String.join (report.failed.map fun (file, error) => "\n  " ++ file ++ ": " ++ message error)

end Report

end XdrBindings
