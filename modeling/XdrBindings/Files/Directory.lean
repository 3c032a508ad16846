import XdrBindings.Merge.Refusal
import XdrBindings.Text.Lines

/-!
# Directories

A path is walked part by part from a directory. An empty part and a single dot stay
where they are, two dots go to the directory above, and any other part goes to what has
that name. Only a directory can be walked on from, so a path fails at a file in the
middle of it, and finds nothing where a part is missing, even if two dots follow.

Above the directory in question nothing is known but directories; a path that begins
with a slash begins there.

Writing makes the directories that it walks through, and what is written last at a
place is what stands there.
-/

namespace XdrBindings

open Merge

/-- What may stand at a place. -/
inductive Stored
  | text (content : Text)
  /-- A file that is no UTF-8 text. -/
  | notText
  | directory
  deriving DecidableEq, Repr

/-- A file with the given bytes. -/
def Stored.ofBytes (bytes : ByteArray) : Stored :=
  match String.fromUTF8? bytes with
  | some content => .text content.toList
  | none => .notText

/-- What stands below a directory, by the names that lead there, the last written
first. -/
abbrev Directory := List (List Text × Stored)

/-! ## Places -/

/-- A place by the names that lead to it, from the directory in question or from
somewhere above it. -/
structure Place where
  isAbove : Bool
  names : List Text
  deriving DecidableEq, Repr

namespace Place

/-- The directory in question. -/
def here : Place := ⟨false, []⟩

/-- Somewhere above the directory in question. -/
def above : Place := ⟨true, []⟩

/-- Where a path begins. -/
def ofPath (path : Text) : Place := if path.startsWith ['/'] then above else here

/-- The place that one part of a path leads to. -/
def step (place : Place) (part : Text) : Place :=
  if part = [] ∨ part = ['.'] then place
  else if part = ['.', '.'] then
    if place.names = [] then above else ⟨place.isAbove, place.names.dropLast⟩
  else ⟨place.isAbove, place.names ++ [part]⟩

end Place

/-- The parts of a path. -/
def pathParts (path : Text) : List Text := path.cut '/'

namespace Directory

/-- What stands at a place. -/
def at? (files : Directory) (place : Place) : Option Stored :=
  if place.names = [] then some .directory
  else if place.isAbove then none
  else files.lookup place.names

/-! ## Reading -/

/-- What a walk along the parts of a path finds. -/
def find? (files : Directory) : Place → (parts : List Text) → Except ReadFailure (Option Stored)
  | place, [] => .ok (files.at? place)
  | place, part :: rest =>
    match files.at? place with
    | none => .ok none
    | some .directory => files.find? (place.step part) rest
    | some _ => .error .notDirectory

/-- The text at a path, if anything stands there. -/
def read (files : Directory) (path : Text) : Except ReadFailure (Option Text) := do
  match ← files.find? (.ofPath path) (pathParts path) with
  | none => return none
  | some (.text content) => return some content
  | some .notText => .error .notText
  | some .directory => .error .isDirectory

/-! ## Writing -/

/-- Makes a directory at a place where nothing stands yet. -/
def makeDirectory (files : Directory) (place : Place) : Directory :=
  if place.isAbove || (files.at? place).isSome then files
  else (place.names, .directory) :: files

/-- Walks along the parts of a path and makes every directory on the way. -/
def enter (files : Directory) : Place → (parts : List Text) → Directory × Place
  | place, [] => (files, place)
  | place, part :: rest =>
    enter (files.makeDirectory (place.step part)) (place.step part) rest

/-- Writes something at a path, with the directories that lead there. -/
def write (files : Directory) (path : Text) (stored : Stored) : Directory :=
  let parts := pathParts path
  match stored with
  | .directory => (files.enter (.ofPath path) parts).1
  | file =>
    let (files, place) := files.enter (.ofPath path) parts.dropLast
    let target := place.step (parts.getLastD [])
    if target.isAbove then files else (target.names, file) :: files

/-- What stands below a directory after writing at some paths in order. -/
def ofEntries (entries : List (Text × Stored)) : Directory :=
  entries.foldl (fun files entry => files.write entry.1 entry.2) []

end Directory

end XdrBindings
