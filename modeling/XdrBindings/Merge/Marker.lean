import XdrBindings.Merge.Style
import XdrBindings.Merge.Refusal
import XdrBindings.Text.Lines

/-!
# Marker lines

Code written by hand stands between two marker lines. A line is a marker line if it
holds a marker anywhere, and one that holds both markers counts as a start. Starts and
ends have to alternate, beginning with a start; that there are as many ends as starts
is checked first.
-/

namespace XdrBindings.Merge

/-! ## Finding marker lines -/

/-- The two sorts of markers. -/
inductive MarkerKind
  | start
  | finish
  deriving DecidableEq, Repr

/-- A marker line: its number, and the positions of its first character and behind its
newline. -/
structure Marker where
  kind : MarkerKind
  line : Nat
  start : Nat
  stop : Nat
  deriving DecidableEq, Repr

/-- The sort of marker that a line holds. -/
def Style.markerOf? (style : Style) (line : Text) : Option MarkerKind :=
  if line.contains style.startMarker then some .start
  else if line.contains style.endMarker then some .finish
  else none

/-- The marker lines among lines that begin with number `line` at `position`. -/
def Style.markersFrom (style : Style) : (line position : Nat) → List Text → List Marker
  | _, _, [] => []
  | line, position, chunk :: rest =>
    let stop := position + chunk.length
    let others := style.markersFrom (line + 1) stop rest
    match style.markerOf? chunk with
    | some kind => ⟨kind, line, position, stop⟩ :: others
    | none => others

/-- The marker lines of a text. -/
def Style.markers (style : Style) (text : Text) : List Marker :=
  style.markersFrom 1 0 text.chunks

/-! ## Pairing them up -/

/-- Pairs every start with the end that follows it, `opened` being a start that waits
for its end. -/
def pairUp : (opened : Option Marker) → List Marker → Except Refusal (List (Marker × Marker))
  | _, [] => .ok []
  | none, marker :: rest =>
    match marker.kind with
    | .start => pairUp (some marker) rest
    | .finish => .error (.endOutsideSection marker.line)
  | some start, marker :: rest =>
    match marker.kind with
    | .start => .error (.startInSection marker.line)
    | .finish => do
      let others ← pairUp none rest
      return (start, marker) :: others

/-- The pairs of marker lines of a text. -/
def Style.pairs (style : Style) (text : Text) : Except Refusal (List (Marker × Marker)) :=
  let markers := style.markers text
  let starts := markers.countP (·.kind == .start)
  let ends := markers.length - starts
  if starts = ends then pairUp none markers else .error (.unevenMarkers starts ends)

/-- Checks that the marker lines of a text pair up. -/
def Style.checkMarkers (style : Style) (text : Text) : Except Refusal Unit :=
  (style.pairs text).map fun _ => ()

end XdrBindings.Merge
