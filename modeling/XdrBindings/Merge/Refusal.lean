import XdrBindings.Code.ClassDecl

/-!
# Refused merges

A merge is refused rather than risk code written by hand: when the markers of the old
file do not pair up, when a section of it lies outside all classes, when a class never
ends, and when the file can not be read.
-/

namespace XdrBindings.Merge

open Code

/-- Why a file that exists can not be read. -/
inductive ReadFailure
  | isDirectory
  /-- A file stands where the path needs a directory. -/
  | notDirectory
  | notText
  deriving DecidableEq, Repr

/-- What the system says of a file that can not be read. -/
def ReadFailure.message : ReadFailure → String
  | .isDirectory => "Is a directory (os error 21)"
  | .notDirectory => "Not a directory (os error 20)"
  | .notText => "stream did not contain valid UTF-8"

/-- What keeps a file from being merged. -/
inductive Defect
  | unclosedClass (found : UnclosedClass)
  /-- A section at this line that no class encloses. -/
  | strandedSection (line : Nat)
  | unreadable (path : String) (reason : ReadFailure)
  deriving DecidableEq, Repr

/-- What a defect is reported as. -/
def Defect.message : Defect → String
  | .unclosedClass found =>
    "class '" ++ String.ofList found.name ++ "' declared at line " ++ toString found.line ++
      " has no closing brace"
  | .strandedSection line =>
    "custom code section at line " ++ toString line ++ " is not inside a class body"
  | .unreadable path reason => "cannot read '" ++ path ++ "': " ++ reason.message

/-- Why a merge is refused. -/
inductive Refusal
  | unevenMarkers (starts ends : Nat)
  /-- A start marker where an end marker is due. -/
  | startInSection (line : Nat)
  /-- An end marker where a start marker is due. -/
  | endOutsideSection (line : Nat)
  /-- The old file has a defect. -/
  | existing (defect : Defect)
  /-- The generated file has a defect. -/
  | generated (defect : Defect)
  deriving DecidableEq, Repr

/-- What a refusal is reported as. -/
def Refusal.message : Refusal → String
  | .unevenMarkers starts ends =>
    "mismatched custom code markers: " ++ toString starts ++ " start markers, " ++
      toString ends ++ " end markers"
  | .startInSection line =>
    "nested custom code start marker at line " ++ toString line ++
      "; markers cannot be nested"
  | .endOutsideSection line =>
    "custom code end marker without a matching start at line " ++ toString line
  | .existing defect =>
    "failed to analyze existing file, merge aborted to keep custom code: " ++ defect.message
  | .generated defect => "failed to analyze generated code: " ++ defect.message

end XdrBindings.Merge
