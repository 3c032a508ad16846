import XdrBindings.Code.Method
import XdrBindings.Merge.OldFile

/-!
# Splicing sections into a generated class

The sections of an old class are written at the end of the body of the generated class
that it matches, between marker lines and indented as members are. A generated method
with the name of one declared in a section is taken out first. A class that holds a
start marker already is left as it is.

Indenting a section shifts all of its lines alike: what the lines that are not blank
have in common of indentation, counted in bytes, is replaced by the indentation of
members. Where that count ends within a character of a line, the whole indentation of
that line is replaced.

## Main statements

* `commonIndent_le`: every line that is not blank is indented at least as far as what
  all of them have in common.
* `splice_of_find?_eq_none`: a text without the class that is asked for stays as it is.
-/

namespace XdrBindings.Merge

open Code

/-! ## Writing a section -/

/-- The width in bytes of the blanks that a line begins with. -/
def indentWidth (line : Text) : Nat := Text.byteSize (line.takeWhile Text.isBlank)

/-- The least indentation of the lines that are not blank. -/
def commonIndent (lines : List Text) : Nat :=
  (((lines.filter fun line => !Text.isBlankText line).map indentWidth).min?).getD 0

theorem commonIndent_le {lines : List Text} {line : Text} (h : line ∈ lines)
    (hBlank : Text.isBlankText line = false) : commonIndent lines ≤ indentWidth line := by
  have hMem : indentWidth line ∈
      (lines.filter fun line => !Text.isBlankText line).map indentWidth :=
    List.mem_map_of_mem (List.mem_filter.mpr ⟨h, by simp [hBlank]⟩)
  unfold commonIndent
  cases hMin : ((lines.filter fun line => !Text.isBlankText line).map indentWidth).min? with
  | none =>
    rw [List.min?_eq_none_iff.mp hMin] at hMem
    cases hMem
  | some least => exact (List.min?_eq_some_iff.mp hMin).2 _ hMem

namespace Style

/-- A line with its newline and the indentation of members instead of `common` bytes of
its own. -/
def indentLine (style : Style) (common : Nat) (line : Text) : Text :=
  if Text.isBlankText line then ['\n']
  else
    style.memberIndent ++ (Text.dropBytes? common line).getD (Text.trimStart line) ++ ['\n']

/-- A marker on a line of its own. -/
def markerLine (style : Style) (marker : Text) : Text :=
  style.memberIndent ++ marker ++ ['\n']

/-- A section between its marker lines, behind an empty line. -/
def writeSection (style : Style) (content : Text) : Text :=
  let lines := content.lines
  ['\n'] ++ style.markerLine style.startMarker ++
    lines.flatMap (style.indentLine (commonIndent lines)) ++
    style.markerLine style.endMarker

end Style

/-! ## Splicing -/

/-- The classes of a generated text. -/
def generatedClasses (text : Text) : Except Refusal (List ClassDecl) :=
  (classesOf text).mapError fun found => .generated (.unclosedClass found)

/-- A class body without the methods that sections declare. -/
def withoutMethods (sections : List Section) (body : Text) : Text :=
  (sections.flatMap fun part => declaredMethods part.content).foldl
    (fun body name => withoutMethod name body) body

namespace Style

/-- A text with sections at the end of a class. -/
def spliceInto (style : Style) (text : Text) (decl : ClassDecl) (sections : List Section) :
    Text :=
  text.take decl.opening ++ ['{'] ++
    Text.trimEnd (withoutMethods sections (decl.body text)) ++ ['\n'] ++
    sections.flatMap (fun part => style.writeSection part.content) ++
    text.drop decl.closing

/-- A generated text with sections in the first class of a given name. -/
def splice (style : Style) (text target : Text) (sections : List Section) :
    Except Refusal Text := do
  let classes ← generatedClasses text
  match classes.find? fun decl => decl.name == target with
  | none => return text
  | some decl =>
    if (decl.body text).contains style.startMarker then return text
    else return style.spliceInto text decl sections

theorem splice_of_find?_eq_none {style : Style} {text target : Text} {sections : List Section}
    {classes : List ClassDecl} (hClasses : generatedClasses text = .ok classes)
    (hNone : classes.find? (fun decl => decl.name == target) = none) :
    style.splice text target sections = .ok text := by
  simp [splice, hClasses, hNone, bind, Except.bind, pure, Except.pure]

end Style

end XdrBindings.Merge
