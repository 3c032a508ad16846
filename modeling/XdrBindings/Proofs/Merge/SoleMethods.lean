import XdrBindings.Proofs.Code.Removal
import XdrBindings.Proofs.Merge.Splice

/-!
# Methods that a section replaces

A method that a section declares is meant to be the only one of its name in the class: the
generated method goes before the section is written.  Where the class body is a row of members this
is so for every plain method.  What is left is the row of the other members, and it declares none
of the names.

A method is named by less than it is removed by.  The name that a section declares is read from a
type, a name and a parenthesis.  What is removed must stand on lines of its own and go on behind
its parameters with a brace, an arrow or `async`.  A generator, with `sync*` or `async*`, is
declared twice behind the splicing.

## Main results

* `isMethodName_of_mem_declaredMethods` — what is found in a section is a name.
* `splice_replaces_methods` — the rest of the class body, and that it declares no method of a
  section.
* `generator_kept` — a generator that is declared twice.
-/

namespace XdrBindings.Merge

open Code

/-! ## Names of methods -/

theorem isMethodName_of_signature? {text : Text} {signature : Signature}
    (h : signature? text = some signature) : IsMethodName signature.name := by
  have hTyped {text : Text} (h : typedSignature? text = some signature) :
      IsMethodName signature.name := by
    obtain ⟨behind, -, hBehind⟩ := List.exists_of_findSome?_eq_some h
    obtain ⟨named, -, hNamed⟩ := Option.bind_eq_some_iff.mp hBehind
    dsimp only at hNamed
    split at hNamed
    · rename_i first rest more hName hOpen
      obtain rfl := Option.some.inj hNamed
      refine ⟨fun hNil => ?_, List.all_eq_true.mp List.all_takeWhile⟩
      change named.takeWhile Text.isWord = [] at hNil
      rw [hName] at hNil
      cases hNil
    · cases hNamed
  rw [signature?, Option.or_eq_some_iff] at h
  rcases h with hStatic | ⟨-, hPlain⟩
  · obtain ⟨rest, -, hRest⟩ := Option.bind_eq_some_iff.mp hStatic
    exact hTyped hRest
  · exact hTyped hPlain

theorem isMethodName_of_mem_signaturesFrom {skip position : Nat} {text : Text}
    {found : Nat × Signature} (h : found ∈ signaturesFrom skip position text) :
    IsMethodName found.2.name := by
  induction text generalizing skip position with
  | nil => cases skip <;> cases h
  | cons c rest ih =>
    cases skip with
    | succ skip => exact ih h
    | zero =>
      rw [signaturesFrom] at h
      split at h
      · rename_i signature hSignature
        rcases List.mem_cons.mp h with rfl | hRest
        · exact isMethodName_of_signature? hSignature
        · exact ih hRest
      · exact ih h

theorem mem_foldl_insertNew {name : Text} {names others : List Text}
    (h : name ∈ names.foldl insertNew others) : name ∈ others ∨ name ∈ names := by
  induction names generalizing others with
  | nil => exact .inl h
  | cons first rest ih =>
    rcases ih h with hOthers | hRest
    · rcases mem_insertNew.mp hOthers with hMem | rfl
      · exact .inl hMem
      · exact .inr List.mem_cons_self
    · exact .inr (List.mem_cons_of_mem _ hRest)

/-- What is found to be declared is named by a word. -/
theorem isMethodName_of_mem_declaredMethods {content name : Text}
    (h : name ∈ declaredMethods content) : IsMethodName name := by
  rcases mem_foldl_insertNew h with hNil | hMem
  · cases hNil
  · obtain ⟨found, hFound, rfl⟩ := List.mem_map.mp hMem
    exact isMethodName_of_mem_signaturesFrom (List.mem_filter.mp hFound).1

/-! ## The rest of the class body -/

/-- The methods that sections declare. -/
def methodNames (sections : List Section) : List Text :=
  sections.flatMap fun part => declaredMethods part.content

/-- Whether splicing sections into a class that holds none leaves no other declaration of their
methods in its body. -/
def Style.ReplacesMethods (style : Style) (text target : Text) (sections : List Section) : Prop :=
  ∀ classes decl, classesOf text = .ok classes →
    classes.find? (fun decl => decl.name == target) = some decl →
    (decl.body text).contains style.startMarker = false →
      ∃ rest, style.splice text target sections =
          .ok (withBody text decl
            (rest ++ sections.flatMap fun part => style.writeSection part.content)) ∧
        ∀ name ∈ methodNames sections, ∀ position, ¬DeclaresAt name rest position

/-- A class body as a row of members and blanks.  Each member keeps to itself, and one that is not
a plain method of a name declares no method of that name and has nothing that is removed for it. -/
structure IsRow (names : List Text) (body : Text) (members : List Member) (tail : Text) : Prop where
  body_eq : body = rowText members ++ tail
  blank : ∀ c ∈ tail, Text.isBlank c = true
  whole : ∀ member ∈ members, IsWhole member.text
  settles : ∀ name ∈ names, ∀ member ∈ members, member.name? ≠ some name →
    Settles name member.text
  declares : ∀ name ∈ names, ∀ member ∈ members, member.name? ≠ some name →
    ∀ position, ¬DeclaresAt name member.text position

/-- Sections that go into a class whose body is a row of members replace all plain methods of their
names: the other members are left in their order, and they declare no method of a section. -/
theorem splice_replaces_methods {style : Style} {text target tail : Text}
    {sections : List Section} {classes : List ClassDecl} {decl : ClassDecl} {members : List Member}
    (hClasses : classesOf text = .ok classes)
    (hDecl : classes.find? (fun decl => decl.name == target) = some decl)
    (hUnmarked : (decl.body text).contains style.startMarker = false)
    (hRow : IsRow (methodNames sections) (decl.body text) members tail) :
    ∃ rest, rest = Text.trimEnd
          (rowText (members.filter fun member => !member.isNamed (methodNames sections)) ++ tail) ++
            ['\n'] ∧
      style.splice text target sections =
        .ok (withBody text decl
          (rest ++ sections.flatMap fun part => style.writeSection part.content)) ∧
      ∀ name ∈ methodNames sections, ∀ position, ¬DeclaresAt name rest position := by
  have hRemoved : withoutMethods sections (decl.body text) =
      rowText (members.filter fun member => !member.isNamed (methodNames sections)) ++ tail := by
    rw [hRow.body_eq]
    exact foldl_withoutMethod_row (fun name hName => ⟨hRow.whole, hRow.settles name hName⟩)
      hRow.blank
  have hSplice := Style.splice_of_find?_eq_some hClasses hDecl hUnmarked sections
  rw [Style.splicedBody, hRemoved] at hSplice
  refine ⟨_, rfl, hSplice, fun name hName position hDeclares => ?_⟩
  obtain ⟨part, -, hMem⟩ := List.mem_flatMap.mp hName
  have hMethod := isMethodName_of_mem_declaredMethods hMem
  -- the blanks that are trimmed and the newline declare nothing
  obtain ⟨blanks, hText, hBlanks⟩ := Text.exists_trimEnd
    (rowText (members.filter fun member => !member.isNamed (methodNames sections)) ++ tail)
  have hNewline : ∀ c ∈ ['\n'], Text.isBlank c = true := by decide
  have hTrimmed := (declaresAt_append_blanks hMethod hNewline).mp hDeclares
  have hWhole := (declaresAt_append_blanks hMethod hBlanks).mpr hTrimmed
  rw [← hText] at hWhole
  refine not_declaresAt_flatten hMethod ?_ ?_ hRow.blank position hWhole
  · intro member hMember
    obtain ⟨kept, hKept, rfl⟩ := List.mem_map.mp hMember
    exact hRow.whole kept (List.mem_filter.mp hKept).1
  · intro member hMember
    obtain ⟨kept, hKept, rfl⟩ := List.mem_map.mp hMember
    obtain ⟨hAll, hNamed⟩ := List.mem_filter.mp hKept
    refine hRow.declares name hName kept hAll fun hOther => ?_
    have hIs : kept.isNamed (methodNames sections) = true := by
      rw [Member.isNamed, hOther, Option.any_some]
      exact List.contains_iff_mem.mpr hName
    rw [hIs] at hNamed
    cases hNamed

/-- A static method with an annotation, a nullable type with arguments, and `async`. -/
def annotatedMethod : PlainMethod where
  heading :=
    { annotations := [⟨[], ['a'], none, [], by decide, by decide, by decide, by decide⟩]
      indent := []
      static := some [' ']
      type := ⟨"Future".toList, some "int".toList, true, by decide, by decide, by decide⟩
      gap := [' ']
      name := ['f']
      space := []
      parameters := "int x".toList
      pause := [' ']
      async := some [' ']
      mark := .brace
      isIndentation_indent := by decide
      isBlank_static := by decide
      type_ne_static := by decide
      gap_ne_nil := by decide
      isBlank_gap := by decide
      isMethodName := by decide
      isBlank_space := by decide
      not_mem_parameters := by decide
      isBlank_pause := by decide
      isBlank_async := by decide }
  body := ['\n']
  last := '\x7d'
  trail := []
  ends := by decide +kernel
  isBlank_trail := by decide

/-- A class with that method between two members. -/
def annotatedClass : Text :=
  ("class A \x7b\nint x;\n@a\nstatic Future<int>? f(int x) async \x7b\n\x7d\n" ++
    "int g() => 1;\n\x7d\n").toList

/-- The annotated method goes, and the members around it stay. -/
theorem splice_replaces_methods_between :
    ∃ rest, Style.standard.splice annotatedClass ['A'] [⟨['A'], "int f() => 2;\n".toList, 2⟩] =
        .ok (withBody annotatedClass ⟨['A'], 0, 8, 73, 1⟩
          (rest ++ "\n  // CUSTOM_CODE_START\n  int f() => 2;\n  // CUSTOM_CODE_END\n".toList)) ∧
      rest = "\nint x;\nint g() => 1;\n".toList ∧ ∀ position, ¬DeclaresAt ['f'] rest position := by
  have hClasses : classesOf annotatedClass = .ok [⟨['A'], 0, 8, 73, 1⟩] := by
    decide +kernel
  have hDecl : List.find? (fun decl => decl.name == ['A']) [(⟨['A'], 0, 8, 73, 1⟩ : ClassDecl)] =
      some ⟨['A'], 0, 8, 73, 1⟩ := by
    decide
  have hUnmarked : Text.contains (ClassDecl.body ⟨['A'], 0, 8, 73, 1⟩ annotatedClass)
      Style.standard.startMarker = false := by
    decide +kernel
  have hNames : methodNames [⟨['A'], "int f() => 2;\n".toList, 2⟩] = [['f']] := by
    decide +kernel
  have hLine : ∀ line ∈ [[], "int x;".toList, "int g() => 1;".toList], ∀ behind,
      declaration? ['f'] (line ++ '\n' :: behind) = none := by
    intro line hLine behind
    simp only [List.mem_cons, List.not_mem_nil, or_false] at hLine
    rcases hLine with rfl | rfl | rfl <;> exact declaration?_eq_none rfl rfl rfl
  have hRow : IsRow (methodNames [⟨['A'], "int f() => 2;\n".toList, 2⟩])
      (ClassDecl.body ⟨['A'], 0, 8, 73, 1⟩ annotatedClass)
      [.other (Text.ofLines [[], "int x;".toList]), .plain annotatedMethod,
        .other (Text.ofLines ["int g() => 1;".toList])] [] := by
    rw [hNames]
    refine ⟨by decide +kernel, by decide, by decide +kernel, ?_, ?_⟩
    · intro name hName member hMember hOther
      obtain rfl := List.mem_singleton.mp hName
      simp only [List.mem_cons, List.not_mem_nil, or_false] at hMember
      rcases hMember with rfl | rfl | rfl
      · exact settles_ofLines (by decide) fun line hMem =>
          hLine line (List.mem_append_left ["int g() => 1;".toList] hMem)
      · exact absurd rfl hOther
      · exact settles_ofLines (by decide) fun line hMem =>
          hLine line (List.mem_append_right [[], "int x;".toList] hMem)
    · intro name hName member hMember hOther
      obtain rfl := List.mem_singleton.mp hName
      simp only [List.mem_cons, List.not_mem_nil, or_false] at hMember
      rcases hMember with rfl | rfl | rfl
      · exact not_declaresAt_of_not_contains (by decide +kernel)
      · exact absurd rfl hOther
      · exact not_declaresAt_of_not_contains (by decide +kernel)
  have hWritten : List.flatMap (fun part => Style.standard.writeSection part.content)
      [(⟨['A'], "int f() => 2;\n".toList, 2⟩ : Section)] =
        "\n  // CUSTOM_CODE_START\n  int f() => 2;\n  // CUSTOM_CODE_END\n".toList := by
    decide +kernel
  obtain ⟨rest, hRest, hSplice, hNone⟩ := splice_replaces_methods hClasses hDecl hUnmarked hRow
  rw [hWritten] at hSplice
  exact ⟨rest, hSplice, hRest.trans (by decide +kernel), hNone ['f'] (by rw [hNames]; decide)⟩

/-- What is declared behind a splice that replaces all methods. -/
theorem Style.ReplacesMethods.not_declaresAt {style : Style} {text target : Text}
    {sections : List Section} (h : style.ReplacesMethods text target sections)
    {classes : List ClassDecl} {decl : ClassDecl} (hClasses : classesOf text = .ok classes)
    (hDecl : classes.find? (fun decl => decl.name == target) = some decl)
    (hUnmarked : (decl.body text).contains style.startMarker = false) {name : Text}
    (hName : name ∈ methodNames sections) (position : Nat) :
    ¬DeclaresAt name (Text.trimEnd (withoutMethods sections (decl.body text)) ++ ['\n'])
      position := by
  obtain ⟨rest, hSplice, hNone⟩ := h classes decl hClasses hDecl hUnmarked
  rw [Style.splice_of_find?_eq_some hClasses hDecl hUnmarked] at hSplice
  have hBodies := (List.cons.inj (List.append_cancel_left (Except.ok.inj hSplice))).2
  obtain rfl := List.append_cancel_right (List.append_cancel_right hBodies)
  exact hNone name hName position

/-- A generator is declared once more by the section that replaces it. -/
theorem generator_kept :
    ¬Style.standard.ReplacesMethods
      ("class XdrA \x7b\n  Iterable<int> items() sync* \x7b\n    yield 1;\n" ++
        "  \x7d\n\x7d\n").toList "XdrA".toList
      [⟨"XdrA".toList,
        "  Iterable<int> items() sync* \x7b\n    yield 2;\n  \x7d\n".toList, 2⟩] := by
  intro hReplaces
  have hDecl : List.find? (fun decl => decl.name == "XdrA".toList)
      [(⟨"XdrA".toList, 0, 11, 62, 1⟩ : ClassDecl)] = some ⟨"XdrA".toList, 0, 11, 62, 1⟩ := by
    decide
  have hNone := hReplaces.not_declaresAt (by decide +kernel) hDecl (by decide +kernel)
    (by decide +kernel : "items".toList ∈ methodNames _) 17
  refine hNone ⟨by decide +kernel, "\n  Iterable<int> ".toList, "items() sync* \x7b".toList,
    "\n    yield 1;\n  \x7d\n".toList, by decide +kernel, by decide, by decide, [], [],
    " sync* ".toList, .brace, by decide, ⟨by decide, .inl (by decide)⟩, by decide, by decide⟩

end XdrBindings.Merge
