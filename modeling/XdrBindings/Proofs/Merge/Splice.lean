import XdrBindings.Proofs.Merge.OldFile
import XdrBindings.Proofs.Merge.Section

/-!
# Splicing keeps the classes

Sections that are closed go into a class without a change to what the search for classes
finds: the same names in the same order, and the same bodies but for the class that is
spliced into.

The blanks at the end of the body go and a newline takes their place.  A backslash may take
that newline, where the body ends in a string that only the end of its line closes.  The
empty line above a section is a second newline, which closes the string; without a section
there is none, so the theorem asks for its effect when the list of sections is empty.

## Main results

* `Style.isClosed_spliced` — the body behind the splicing is closed.
* `Style.splice_keeps_classes` — the classes of the text behind the splicing.
-/

namespace XdrBindings.Merge

open Code

theorem region_eq_code_iff {mode : Mode} : mode.region = .code ↔ mode = .code := by
  cases mode with
  | code => exact iff_of_true rfl rfl
  | lineComment => exact iff_of_false nofun nofun
  | blockComment depth => exact iff_of_false nofun nofun
  | string quote triple raw => cases quote <;> exact iff_of_false nofun nofun

theorem generatedClasses_eq_ok_iff {text : Text} {classes : List ClassDecl} :
    generatedClasses text = .ok classes ↔ classesOf text = .ok classes := by
  unfold generatedClasses
  cases classesOf text with
  | error unclosed => exact iff_of_false nofun nofun
  | ok found =>
    show Except.ok found = Except.ok classes ↔ _
    rw [Except.ok.injEq, Except.ok.injEq]

/-- Taking out methods that are not there leaves a body as it is. -/
theorem withoutMethods_eq_self {sections : List Section} {body : Text}
    (h : ∀ part ∈ sections, ∀ name ∈ declaredMethods part.content,
      withoutMethod name body = body) : withoutMethods sections body = body := by
  have hNames : ∀ name ∈ sections.flatMap fun part => declaredMethods part.content,
      withoutMethod name body = body := by
    intro name hName
    obtain ⟨part, hPart, hMem⟩ := List.mem_flatMap.mp hName
    exact h part hPart name hMem
  unfold withoutMethods
  generalize (sections.flatMap fun part => declaredMethods part.content) = names at hNames
  induction names with
  | nil => rfl
  | cons name rest ih =>
    rw [List.foldl_cons, hNames name List.mem_cons_self]
    exact ih fun other hMem => hNames other (List.mem_cons_of_mem _ hMem)

namespace Style

/-- A body with sections behind it. -/
def splicedBody (style : Style) (body : Text) (sections : List Section) : Text :=
  Text.trimEnd body ++ ['\n'] ++ sections.flatMap fun part => style.writeSection part.content

theorem isClosed_spliced {style : Style} (hStyle : style.IsPlain) {body : Text}
    (hBody : IsClosed body) {sections : List Section}
    (hContents : ∀ part ∈ sections, IsClosed (Text.ofLines part.content.lines))
    (hNone : sections = [] → endRegion (Text.trimEnd body ++ ['\n']) = .code) :
    IsClosed (style.splicedBody body sections) := by
  obtain ⟨blanks, hText, hBlanks⟩ := Text.exists_trimEnd body
  unfold splicedBody
  cases sections with
  | nil =>
    have hEnds : (Reader.start.after (Text.trimEnd body ++ ['\n'])).mode = .code :=
      region_eq_code_iff.mp (hNone rfl)
    rw [List.flatMap_nil, List.append_nil]
    exact hBody.trim_newline hText hBlanks hEnds
  | cons part rest =>
    obtain ⟨block, hWritten, hBlock, hBlockLine⟩ :=
      exists_writeSection hStyle (hContents part List.mem_cons_self)
    have hRest : IsClosed ((rest.map Section.content).flatMap style.writeSection) := by
      apply isClosed_writeSections hStyle
      intro content hMem
      obtain ⟨other, hOther, rfl⟩ := List.mem_map.mp hMem
      exact hContents other (List.mem_cons_of_mem _ hOther)
    rw [List.flatMap_map] at hRest
    have hSpliced := hBody.trim hText hBlanks (hBlock.append hBlockLine hRest)
    rw [List.flatMap_cons, hWritten]
    simpa using hSpliced

theorem splice_of_find?_eq_some {style : Style} {text target : Text}
    {classes : List ClassDecl} {decl : ClassDecl} (hClasses : classesOf text = .ok classes)
    (hDecl : classes.find? (fun decl => decl.name == target) = some decl)
    (hUnmarked : (decl.body text).contains style.startMarker = false)
    (sections : List Section) :
    style.splice text target sections = .ok (withBody text decl
      (style.splicedBody (withoutMethods sections (decl.body text)) sections)) := by
  have hInto : style.spliceInto text decl sections = withBody text decl
      (style.splicedBody (withoutMethods sections (decl.body text)) sections) := by
    unfold spliceInto withBody splicedBody
    simp
  unfold splice
  refine bind_eq_ok_iff.mpr ⟨classes, generatedClasses_eq_ok_iff.mpr hClasses, ?_⟩
  rw [hDecl]
  show (if (decl.body text).contains style.startMarker then Except.ok text
    else Except.ok (style.spliceInto text decl sections)) = _
  rw [hUnmarked, hInto]
  rfl

/-- Splicing closed sections into a class that holds none succeeds.  The text behind it has
the same classes, and the same bodies but for that of the class. -/
theorem splice_keeps_classes {style : Style} (hStyle : style.IsPlain) {text target : Text}
    {classes : List ClassDecl} {decl : ClassDecl} (hClasses : classesOf text = .ok classes)
    (hDecl : classes.find? (fun decl => decl.name == target) = some decl)
    (hUnmarked : (decl.body text).contains style.startMarker = false)
    {sections : List Section} (hContents : ∀ part ∈ sections, IsClosedLines part.content)
    (hMethods : ∀ part ∈ sections, ∀ name ∈ declaredMethods part.content,
      withoutMethod name (decl.body text) = decl.body text)
    (hNone : sections = [] → endRegion (Text.trimEnd (decl.body text) ++ ['\n']) = .code) :
    ∃ spliced found, style.splice text target sections = .ok spliced ∧
      classesOf spliced = .ok found ∧
      found.map ClassDecl.name = classes.map ClassDecl.name ∧
      found.map (ClassDecl.body · spliced) =
        (classes.map (ClassDecl.body · text)).set
          (classes.findIdx fun decl => decl.name == target)
          (Text.trimEnd (decl.body text) ++ ['\n'] ++
            sections.flatMap fun part => style.writeSection part.content) := by
  obtain ⟨hName, first, last, hSplit, hFirst⟩ := List.find?_eq_some_iff_append.mp hDecl
  have hMem : decl ∈ classes := List.mem_of_find?_eq_some hDecl
  have hLines : ∀ part ∈ sections, IsClosed (Text.ofLines part.content.lines) :=
    fun part hPart => (hContents part hPart).isClosed_lines
  have hClosed := isClosed_spliced hStyle (isClosed_body hClasses hMem) hLines hNone
  obtain ⟨found, hFound, hNames, hBodies⟩ := classesOf_withBody hClasses hSplit hClosed
  have hIndex : classes.findIdx (fun decl => decl.name == target) = first.length := by
    have hNoFirst : ∀ other ∈ first, (other.name == target) = false := by
      intro other hOther
      simpa using hFirst other hOther
    rw [hSplit, List.findIdx_append, List.findIdx_eq_length_of_false hNoFirst,
      if_neg (Nat.lt_irrefl _), List.findIdx_cons, hName]
    simp
  have hSplice := splice_of_find?_eq_some hClasses hDecl hUnmarked sections
  rw [withoutMethods_eq_self hMethods] at hSplice
  refine ⟨_, found, hSplice, hFound, hNames, ?_⟩
  rw [hIndex]
  exact hBodies

/-- A method goes to the end of the second of three classes. -/
theorem splice_between_classes :
    ∃ spliced found,
      standard.splice
          "class A \x7b\x7d\nclass B \x7b\n  int x;\n\x7d\nclass C \x7b \x7d\n".toList "B".toList
          [⟨"B".toList, "int y() \x7b\n\n  return x; // \x7d\n\x7d\n".toList, 3⟩] =
        .ok spliced ∧
      classesOf spliced = .ok found ∧
      found.map ClassDecl.name = ["A".toList, "B".toList, "C".toList] ∧
      found.map (ClassDecl.body · spliced) =
        [[],
          ("\n  int x;\n\n  // CUSTOM_CODE_START\n" ++
            "  int y() \x7b\n\n    return x; // \x7d\n  \x7d\n  // CUSTOM_CODE_END\n").toList,
          " ".toList] := by
  have hClasses :
      classesOf "class A \x7b\x7d\nclass B \x7b\n  int x;\n\x7d\nclass C \x7b \x7d\n".toList =
        .ok [⟨"A".toList, 0, 8, 9, 1⟩, ⟨"B".toList, 11, 19, 30, 2⟩,
          ⟨"C".toList, 32, 40, 42, 5⟩] := by
    decide +kernel
  have hDecl : List.find? (fun decl => decl.name == "B".toList)
      [(⟨"A".toList, 0, 8, 9, 1⟩ : ClassDecl), ⟨"B".toList, 11, 19, 30, 2⟩,
        ⟨"C".toList, 32, 40, 42, 5⟩] = some ⟨"B".toList, 11, 19, 30, 2⟩ := by
    decide
  have hContents : ∀ part ∈
      [(⟨"B".toList, "int y() \x7b\n\n  return x; // \x7d\n\x7d\n".toList, 3⟩ : Section)],
      IsClosedLines part.content := by
    intro part hPart
    rw [List.mem_singleton.mp hPart]
    exact ⟨⟨by decide, by decide⟩, fun c hc => (Option.some.inj hc).symm, by decide⟩
  obtain ⟨spliced, found, hSplice, hFound, hNames, hBodies⟩ :=
    splice_keeps_classes isPlain_standard hClasses hDecl (by decide) hContents
      (by decide +kernel) nofun
  exact ⟨spliced, found, hSplice, hFound, hNames, hBodies.trans (by decide +kernel)⟩

/-- Without sections nothing ends the string that a body may end in: the one line break that
is left is escaped, and the brace of the class behind it is part of the string. -/
theorem splice_without_sections_loses_class :
    standard.IsPlain ∧ ∃ text classes decl spliced unclosed,
      text = "class A \x7b\n  var s = 'abc\\\n\n\x7d\nclass B \x7b\n\x7d\n".toList ∧
      classesOf text = .ok classes ∧
      classes.map ClassDecl.name = ["A".toList, "B".toList] ∧
      classes.find? (fun decl => decl.name == "A".toList) = some decl ∧
      (decl.body text).contains standard.startMarker = false ∧
      standard.splice text "A".toList [] = .ok spliced ∧
      classesOf spliced = .error unclosed := by
  refine ⟨isPlain_standard, _, [⟨"A".toList, 0, 8, 27, 1⟩, ⟨"B".toList, 29, 37, 39, 5⟩],
    ⟨"A".toList, 0, 8, 27, 1⟩,
    "class A \x7b\n  var s = 'abc\\\n\x7d\nclass B \x7b\n\x7d\n".toList, ⟨"A".toList, 1⟩,
    rfl, ?_⟩
  rw [String.toList_ofList]
  decide +kernel

end Style

end XdrBindings.Merge
