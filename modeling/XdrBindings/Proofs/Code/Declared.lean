import XdrBindings.Code.Method
import XdrBindings.Proofs.Code.Balance
import XdrBindings.Proofs.Code.Outline
import XdrBindings.Proofs.Code.Renamed

/-!
# Methods that a class body declares

A class body declares a method where, outside of all blocks, its code reads as the name and the
parameters of a method with a body behind them.  That is said of the code alone: comments and
strings count as blanks, parentheses are matched, and nothing is asked of lines, types or
annotations.  It is not how methods are searched for.

A body is a row of members.  A member that ends with a semicolon or a closing brace, and closes the
parentheses that it opens, keeps its declarations to itself: what is declared in a row of such
members is declared in one of them.

## Main results

* `depthAt?_append_left`, `depthAt?_append_right` — the depth in a text that is put together.
* `IsHeading.within` — a heading goes on to the end of no member.
* `not_declaresAt_flatten` — what a row of members declares.
* `declaresAt_append_blanks` — blanks behind a text declare nothing.
-/

namespace XdrBindings.Text

/-! ## Cuts around a character -/

/-- A character that is not in the front of a text is in the rest. -/
theorem exists_of_not_mem_front {c : Char} {first second front back : Text}
    (h : first ++ c :: second = front ++ back) (hc : c ∉ front) :
    ∃ more, first = front ++ more ∧ back = more ++ c :: second := by
  rcases List.append_eq_append_iff.mp h with ⟨more, rfl, hBack⟩ | ⟨more, rfl, rfl⟩
  · cases more with
    | nil => exact ⟨[], by simp, by simpa using hBack.symm⟩
    | cons d rest =>
      obtain ⟨rfl, -⟩ := List.cons.inj hBack
      exact absurd (by simp) hc
  · exact ⟨more, rfl, rfl⟩

/-- A character that is not in the end of a text is in front of it. -/
theorem exists_of_not_mem_back {c : Char} {first second front back : Text}
    (h : first ++ c :: second = front ++ back) (hc : c ∉ back) :
    ∃ more, front = first ++ c :: more ∧ second = more ++ back := by
  rcases List.append_eq_append_iff.mp h with ⟨more, rfl, hBack⟩ | ⟨more, rfl, rfl⟩
  · cases more with
    | nil => exact absurd (by rw [← List.nil_append back, ← hBack]; exact List.mem_cons_self) hc
    | cons d rest =>
      obtain ⟨rfl, rfl⟩ := List.cons.inj hBack
      exact ⟨rest, rfl, rfl⟩
  · exact absurd (by simp) hc

theorem mem_trim {c : Char} {text : Text} (h : c ∈ text) (hc : isBlank c = false) :
    c ∈ trim text := by
  obtain ⟨blanks, hText, hBlanks⟩ := exists_trimEnd (trimStart text)
  have hNo {some : Text} (hSome : ∀ d ∈ some, isBlank d = true) : c ∉ some := by
    intro hMem
    rw [hSome c hMem] at hc
    cases hc
  have hSplit : text = text.takeWhile isBlank ++ (trim text ++ blanks) := by
    rw [trim, ← hText]
    exact List.takeWhile_append_dropWhile.symm
  rw [hSplit, List.mem_append, List.mem_append] at h
  rcases h with hFront | hTrim | hBack
  · exact absurd hFront (hNo (List.all_eq_true.mp List.all_takeWhile))
  · exact hTrim
  · exact absurd hBack (hNo hBlanks)

/-- The last character that is not blank. -/
theorem exists_last {text : Text} (h : isBlankText text = false) :
    ∃ front last blanks, text = front ++ last :: blanks ∧ trimEnd text = front ++ [last] ∧
      ∀ c ∈ blanks, isBlank c = true := by
  obtain ⟨blanks, hText, hBlanks⟩ := exists_trimEnd text
  have hSome : trimEnd text ≠ [] := by
    intro hNil
    rw [hNil, List.nil_append] at hText
    rw [hText, isBlankText, List.all_eq_true.mpr hBlanks] at h
    cases h
  have hConcat := List.dropLast_concat_getLast hSome
  refine ⟨(trimEnd text).dropLast, (trimEnd text).getLast hSome, blanks, ?_, hConcat.symm, hBlanks⟩
  rw [← List.singleton_append, ← List.append_assoc, hConcat]
  exact hText

end XdrBindings.Text

namespace XdrBindings.Code

/-! ## The code of a text -/

/-- The code of a text, with a blank in the place of every other character. -/
def Reader.codeView (reader : Reader) : Text → Text
  | [] => []
  | c :: rest =>
    (if (reader.step c rest).2 = .code then c else ' ') :: (reader.step c rest).1.codeView rest

/-- The code of a text, with blanks in the place of comments and strings. -/
def codeOnly (text : Text) : Text := Reader.start.codeView text

namespace Reader

@[simp] theorem length_codeView (reader : Reader) (text : Text) :
    (reader.codeView text).length = text.length := by
  induction text generalizing reader with
  | nil => rfl
  | cons c rest ih => simp [codeView, ih]

theorem codeView_append (reader : Reader) {front back : Text} (hCut : Cut front back) :
    reader.codeView (front ++ back) =
      reader.codeView front ++ (reader.after front).codeView back := by
  induction front generalizing reader with
  | nil => rfl
  | cons c rest ih =>
    simp only [List.cons_append, codeView, step_append _ hCut, ih _ hCut.of_cons, after_cons]

theorem Alike.codeView_eq {reader other : Reader} (h : Alike reader other) (text : Text) :
    reader.codeView text = other.codeView text := by
  cases text with
  | nil => rfl
  | cons c rest => simp only [codeView, h.step_eq]

theorem isBlank_codeView {text : Text} (h : ∀ c ∈ text, Text.isBlank c = true) (reader : Reader) :
    ∀ c ∈ reader.codeView text, Text.isBlank c = true := by
  induction text generalizing reader with
  | nil => exact List.forall_mem_nil _
  | cons c rest ih =>
    obtain ⟨hc, hRest⟩ := List.forall_mem_cons.mp h
    refine List.forall_mem_cons.mpr ⟨?_, ih hRest _⟩
    by_cases hCode : (reader.step c rest).2 = .code
    · rw [if_pos hCode]
      exact hc
    · rw [if_neg hCode]
      rfl

end Reader

theorem length_codeOnly (text : Text) : (codeOnly text).length = text.length :=
  Reader.length_codeView _ _

/-- A closed line keeps its code apart from what stands behind it. -/
theorem IsClosed.codeOnly_append {front : Text} (h : IsClosed front) (hLine : Text.EndsLine front)
    (back : Text) : codeOnly (front ++ back) = codeOnly front ++ codeOnly back := by
  rw [codeOnly, Reader.codeView_append _ (cut_of_endsLine hLine back),
    (h.after_line hLine).codeView_eq]
  rfl

/-! ## The depth in a text that is put together -/

theorem mem_codeUnits_of_depthAt? {text : Text} {position depth : Nat}
    (hPosition : position < text.length) (h : depthAt? text position = some depth) :
    ∃ c, (position, c) ∈ codeUnits text := by
  obtain ⟨earlier, spot, later, hSpots, rfl⟩ := exists_of_depthAt?_eq_some hPosition h
  exact ⟨spot.char, mem_codeUnits_iff_spot.mpr ⟨spot, by simp [hSpots], rfl, rfl⟩⟩

theorem depthAt?_append_left {front back : Text} (hCut : Cut front back) {position depth : Nat}
    (hPosition : position < front.length) :
    depthAt? (front ++ back) position = some depth ↔ depthAt? front position = some depth := by
  have hUnits : codeUnits (front ++ back) = codeUnits front ++
      (Reader.start.after front).codeFrom (0 + front.length) back :=
    Reader.codeFrom_append _ _ hCut
  -- a place of code of the front has the same code in front of it in both texts
  have hSame {c : Char} (hUnit : (position, c) ∈ codeUnits front) :
      depthAt? (front ++ back) position = depthAt? front position := by
    obtain ⟨earlier, later, hSplit⟩ := List.append_of_mem hUnit
    have hWhole : codeUnits (front ++ back) = earlier ++ (position, c) ::
        (later ++ (Reader.start.after front).codeFrom (0 + front.length) back) := by
      rw [hUnits, hSplit, List.append_assoc, List.cons_append]
    exact (depthAt?_of_codeUnits_eq hWhole).trans (depthAt?_of_codeUnits_eq hSplit).symm
  constructor
  · intro h
    obtain ⟨c, hUnit⟩ := mem_codeUnits_of_depthAt?
      (by rw [List.length_append]; omega : position < (front ++ back).length) h
    rw [hUnits, List.mem_append] at hUnit
    rcases hUnit with hFront | hBack
    · exact (hSame hFront) ▸ h
    · obtain ⟨index, hIndex, -⟩ := Reader.mem_codeFrom.mp hBack
      change position = 0 + front.length + index at hIndex
      omega
  · intro h
    obtain ⟨c, hUnit⟩ := mem_codeUnits_of_depthAt? hPosition h
    exact (hSame hUnit).trans h

theorem Reader.codeFrom_add (reader : Reader) (position count : Nat) (text : Text) :
    reader.codeFrom (position + count) text =
      (reader.codeFrom position text).map fun unit => (unit.1 + count, unit.2) := by
  rw [← map_spotsFrom, ← map_spotsFrom, spotsFrom_add, List.map_map, List.map_map]
  rfl

theorem IsClosed.codeUnits_append {front : Text} (h : IsClosed front) (hLine : Text.EndsLine front)
    (back : Text) :
    codeUnits (front ++ back) = codeUnits front ++
      (codeUnits back).map fun unit => (unit.1 + front.length, unit.2) := by
  have hAfter : (Reader.start.after front).codeFrom (0 + front.length) back =
      Reader.start.codeFrom (0 + front.length) back := by
    rw [← Reader.map_spotsFrom, ← Reader.map_spotsFrom, (h.after_line hLine).spotsFrom_eq]
  rw [codeUnits, Reader.codeFrom_append _ _ (cut_of_endsLine hLine back), hAfter,
    Reader.codeFrom_add]
  rfl

theorem IsClosed.depthBehind_append {front : Text} (h : IsClosed front) (chars : Text) :
    depthBehind (Reader.start.codeChars front ++ chars) = depthBehind chars := by
  rw [Code.depthBehind_append, show depthBehind (Reader.start.codeChars front) = 0 from
    foldl_nesting_of_openBlocks h.balanced]
  rfl

theorem depthAt?_append_right {front back : Text} (h : IsClosed front)
    (hLine : Text.EndsLine front) {position depth : Nat} (hPosition : position < back.length) :
    depthAt? (front ++ back) (front.length + position) = some depth ↔
      depthAt? back position = some depth := by
  have hUnits := h.codeUnits_append hLine back
  have hSame {c : Char} (hUnit : (position, c) ∈ codeUnits back) :
      depthAt? (front ++ back) (front.length + position) = depthAt? back position := by
    obtain ⟨earlier, later, hSplit⟩ := List.append_of_mem hUnit
    have hWhole : codeUnits (front ++ back) =
        (codeUnits front ++ earlier.map fun unit => (unit.1 + front.length, unit.2)) ++
          (front.length + position, c) ::
            later.map fun unit => (unit.1 + front.length, unit.2) := by
      rw [hUnits, hSplit, List.map_append, List.map_cons, List.append_assoc, Nat.add_comm]
    have hChars : (codeUnits front).map Prod.snd = Reader.start.codeChars front :=
      Reader.map_codeFrom _ _ _
    rw [depthAt?_of_codeUnits_eq hSplit]
    refine (depthAt?_of_codeUnits_eq hWhole).trans ?_
    rw [List.map_append, hChars, h.depthBehind_append, List.map_map]
    rfl
  constructor
  · intro hDepth
    obtain ⟨c, hUnit⟩ := mem_codeUnits_of_depthAt?
      (by rw [List.length_append]; omega : front.length + position < (front ++ back).length) hDepth
    rw [hUnits, List.mem_append] at hUnit
    rcases hUnit with hFront | hBack
    · obtain ⟨hChar, -⟩ := mem_codeUnits.mp hFront
      obtain ⟨hLt, -⟩ := List.getElem?_eq_some_iff.mp hChar
      omega
    · obtain ⟨unit, hMem, hEq⟩ := List.mem_map.mp hBack
      obtain ⟨hPlace, -⟩ := Prod.mk.inj hEq
      have hUnit : (position, unit.2) ∈ codeUnits back := by
        have hFirst : unit.1 = position := by omega
        exact hFirst ▸ hMem
      exact (hSame hUnit) ▸ hDepth
  · intro hDepth
    obtain ⟨c, hUnit⟩ := mem_codeUnits_of_depthAt? hPosition hDepth
    exact (hSame hUnit).trans hDepth

/-! ## Headings -/

/-- The brace that stands for a parenthesis. -/
def asBrace (c : Char) : Char := if c = '(' then '{' else if c = ')' then '}' else ' '

/-- Whether characters close exactly the parentheses that they open, and none before it is open. -/
def ParensMatch (chars : Text) : Prop := openBlocks 0 (chars.map asBrace) = some 0

instance (chars : Text) : Decidable (ParensMatch chars) :=
  inferInstanceAs (Decidable (_ = _))

/-- The characters that a body begins with. -/
def BodyMark.text : BodyMark → Text
  | .brace => "\x7b".toList
  | .arrow => "=>".toList

/-- Whether a text is nothing but blanks, or type parameters in angle brackets. -/
structure IsTypeParameters (text : Text) : Prop where
  chars : ∀ c ∈ text, isArgumentChar c = true
  brackets : Text.trim text = [] ∨
    (Text.trim text).head? = some '<' ∧ (Text.trim text).getLast? = some '>'

/-- What may stand between the parameters of a method and its body, but for blanks. -/
def modifiers : List Text := ["", "async", "async*", "sync*"].map String.toList

/-- Whether a text is the heading of a method, from its name through the mark of its body. -/
def IsHeading (name text : Text) : Prop :=
  ∃ (types parameters modifier : Text) (mark : BodyMark),
    text = (name ++ types ++ ['(']) ++ (parameters ++ (')' :: modifier ++ mark.text)) ∧
      IsTypeParameters types ∧ ParensMatch parameters ∧ Text.trim modifier ∈ modifiers

/-- Whether a method is declared at a position of a class body, by its code alone: outside of all
blocks its name stands there as a word of its own, with the rest of a heading behind it. -/
def DeclaresAt (name body : Text) (position : Nat) : Prop :=
  depthAt? body position = some 0 ∧
    ∃ front heading back, codeOnly body = front ++ (heading ++ back) ∧ front.length = position ∧
      (∀ c ∈ front.getLast?, isTypeChar c = false ∧ c ≠ '.') ∧ IsHeading name heading

/-- Whether a text can be the name of a method. -/
def IsMethodName (name : Text) : Prop := name ≠ [] ∧ ∀ c ∈ name, Text.isWord c = true

instance (name : Text) : Decidable (IsMethodName name) := inferInstanceAs (Decidable (_ ∧ _))

theorem IsMethodName.exists_cons {name : Text} (h : IsMethodName name) :
    ∃ c rest, name = c :: rest ∧ Text.isBlank c = false := by
  obtain ⟨hSome, hWord⟩ := h
  obtain ⟨c, rest, rfl⟩ := List.exists_cons_of_ne_nil hSome
  refine ⟨c, rest, rfl, ?_⟩
  cases hc : Text.isBlank c with
  | false => rfl
  | true =>
    have hNoWord := isWord_of_isBlank hc
    rw [hWord c List.mem_cons_self] at hNoWord
    cases hNoWord

theorem isHeading_cons {name heading : Text} (hName : IsMethodName name)
    (h : IsHeading name heading) : ∃ c rest, heading = c :: rest ∧ Text.isBlank c = false := by
  obtain ⟨c, rest, rfl, hc⟩ := hName.exists_cons
  obtain ⟨types, parameters, modifier, mark, rfl, -⟩ := h
  exact ⟨c, _, rfl, hc⟩

/-- A heading ends with the mark of a body. -/
theorem isHeading_concat {name heading : Text} (h : IsHeading name heading) :
    ∃ front c, heading = front ++ [c] ∧ Text.isBlank c = false := by
  obtain ⟨types, parameters, modifier, mark, rfl, -⟩ := h
  cases mark with
  | brace => exact ⟨(name ++ types ++ ['(']) ++ (parameters ++ (')' :: modifier)), '{',
      by simp [BodyMark.text], rfl⟩
  | arrow => exact ⟨(name ++ types ++ ['(']) ++ (parameters ++ (')' :: modifier ++ ['='])), '>',
      by simp [BodyMark.text], rfl⟩

/-- A semicolon or closing brace in a heading stands among the parameters. -/
theorem IsHeading.exists_of_end {name heading front back : Text} {c : Char}
    (h : IsHeading name heading) (hName : IsMethodName name) (hc : c = ';' ∨ c = '}')
    (hEq : heading = front ++ c :: back) :
    ∃ before parameters behind rest, front = before ++ '(' :: parameters ∧
      back = behind ++ ')' :: rest ∧ ParensMatch (parameters ++ c :: behind) := by
  obtain ⟨types, parameters, modifier, mark, rfl, hTypes, hParens, hModifier⟩ := h
  have hNoName : c ∉ name := by
    intro hMem
    have hWord := hName.2 c hMem
    rcases hc with rfl | rfl <;> cases hWord
  have hNoTypes : c ∉ types := by
    intro hMem
    have hArgument := hTypes.chars c hMem
    rcases hc with rfl | rfl <;> cases hArgument
  have hNoModifier : c ∉ modifier := by
    intro hMem
    have hEnd : ∀ word ∈ modifiers, ∀ d ∈ [';', '}'], d ∉ word := by decide
    have hBlank : Text.isBlank c = false := by rcases hc with rfl | rfl <;> rfl
    exact hEnd _ hModifier c (by simpa using hc) (Text.mem_trim hMem hBlank)
  have hNoMark : c ∉ mark.text := by
    rcases hc with rfl | rfl <;> cases mark <;> decide
  have hNe : c ≠ '(' ∧ c ≠ ')' := by rcases hc with rfl | rfl <;> decide
  obtain ⟨inner, rfl, hInner⟩ := Text.exists_of_not_mem_front hEq.symm
    (by simp [hNoName, hNoTypes, hNe.1])
  obtain ⟨behind, rfl, rfl⟩ := Text.exists_of_not_mem_back hInner.symm
    (by simp [hNoModifier, hNoMark, hNe.2])
  exact ⟨name ++ types, inner, behind, modifier ++ mark.text, by simp, by simp, hParens⟩

theorem exists_openBlocks_of_append {depth opened : Nat} {front back : Text}
    (h : openBlocks depth (front ++ back) = some opened) :
    ∃ inner, openBlocks depth front = some inner ∧ openBlocks inner back = some opened := by
  rw [openBlocks_append] at h
  exact Option.bind_eq_some_iff.mp h

/-- Parentheses do not match in a text that ends among the parameters of a heading. -/
theorem not_parensMatch_of_open {parameters rest : Text} (h : ParensMatch (parameters ++ rest))
    (front : Text) : ¬ParensMatch (front ++ '(' :: parameters) := by
  intro hParens
  rw [ParensMatch, List.map_append] at h hParens
  obtain ⟨depth, -, hOpen⟩ := exists_openBlocks_of_append hParens
  obtain ⟨opened, hOpened, -⟩ := exists_openBlocks_of_append h
  have hDeeper := openBlocks_add hOpened (depth + 1)
  rw [Nat.zero_add] at hDeeper
  change openBlocks (depth + 1) (parameters.map asBrace) = some 0 at hOpen
  rw [hDeeper] at hOpen
  cases hOpen

/-- A heading that begins in a part of a text ends in it, if the part closes its parentheses and
ends with a semicolon or a closing brace. -/
theorem IsHeading.within {name heading first rest front back : Text} (h : IsHeading name heading)
    (hName : IsMethodName name) (hParens : ParensMatch first)
    (hFinished : ∀ c ∈ (Text.trimEnd first).getLast?, c = ';' ∨ c = '}')
    (hEq : first ++ rest = front ++ (heading ++ back)) (hLt : front.length < first.length) :
    ∃ more, first = front ++ (heading ++ more) := by
  rcases List.append_eq_append_iff.mp hEq with ⟨between, rfl, -⟩ | ⟨part, rfl, hPart⟩
  · rw [List.length_append] at hLt
    omega
  rcases List.append_eq_append_iff.mp hPart with ⟨more, rfl, -⟩ | ⟨beyond, hHeading, -⟩
  · exact ⟨more, rfl⟩
  -- the part of the heading in front of the end holds the semicolon or brace that ends the part
  exfalso
  obtain ⟨c, others, hCons, hc⟩ := isHeading_cons hName h
  have hFirst : part.head? = some c := by
    cases part with
    | nil =>
      rw [List.append_nil] at hLt
      exact absurd hLt (Nat.lt_irrefl _)
    | cons d tail => exact congrArg some (List.cons.inj (hHeading.symm.trans hCons)).1
  have hSome : Text.isBlankText part = false :=
    Text.isBlankText_eq_false (List.mem_of_mem_head? hFirst) hc
  obtain ⟨inner, last, blanks, rfl, hTrim, hBlanks⟩ := Text.exists_last hSome
  have hEnd : last = ';' ∨ last = '}' := by
    refine hFinished last ?_
    rw [Text.trimEnd_append hSome, hTrim, ← List.append_assoc, List.getLast?_concat]
    rfl
  rw [List.append_assoc, List.cons_append] at hHeading
  obtain ⟨before, parameters, behind, others, rfl, hBehind, hInside⟩ :=
    h.exists_of_end hName hEnd hHeading
  obtain ⟨closed, rfl, -⟩ := Text.exists_of_not_mem_front hBehind.symm fun hMem => by
    have hBlank := hBlanks ')' hMem
    cases hBlank
  -- so it leaves a parenthesis open
  have hSplit : parameters ++ last :: (blanks ++ closed) =
      (parameters ++ last :: blanks) ++ closed := by simp
  rw [hSplit] at hInside
  refine not_parensMatch_of_open hInside (front ++ before) ?_
  rw [List.append_assoc]
  simpa using hParens

/-! ## Rows of members -/

/-- A member that keeps its declarations to itself: lines that are closed, with parentheses that
match, and a semicolon or a closing brace at the end of the code, if there is any. -/
structure IsWhole (text : Text) : Prop where
  closed : IsClosed text
  endsLine : Text.EndsLine text
  parens : ParensMatch (codeOnly text)
  finished : ∀ c ∈ (Text.trimEnd (codeOnly text)).getLast?, c = ';' ∨ c = '}'

instance (text : Text) : Decidable (IsWhole text) :=
  decidable_of_iff (IsClosed text ∧ (∀ c ∈ text.getLast?, c = '\n') ∧ ParensMatch (codeOnly text) ∧
      ∀ c ∈ (Text.trimEnd (codeOnly text)).getLast?, c = ';' ∨ c = '}')
    ⟨fun h => ⟨h.1, h.2.1, h.2.2.1, h.2.2.2⟩, fun h => ⟨h.closed, h.endsLine, h.parens, h.finished⟩⟩

/-- Code that does not hold a name declares no method of that name. -/
theorem not_declaresAt_of_not_contains {name text : Text}
    (h : Text.contains (codeOnly text) name = false) (position : Nat) :
    ¬DeclaresAt name text position := by
  rintro ⟨-, front, heading, back, hCode, -, -, types, parameters, modifier, mark, rfl, -⟩
  have hContains : Text.contains (codeOnly text) name = true := by
    rw [hCode, List.append_assoc, List.append_assoc, List.append_assoc]
    exact Text.contains_iff.mpr ⟨front, _, rfl⟩
  rw [h] at hContains
  cases hContains

/-- A name that is declared in a member with more text behind it is declared in the member alone
or in the text. -/
theorem DeclaresAt.of_append {name front back : Text} {position : Nat} (hName : IsMethodName name)
    (hFront : IsWhole front) (h : DeclaresAt name (front ++ back) position) :
    DeclaresAt name front position ∨ ∃ behind, DeclaresAt name back behind := by
  obtain ⟨hDepth, before, heading, rest, hCode, rfl, hApart, hHeading⟩ := h
  rw [hFront.closed.codeOnly_append hFront.endsLine] at hCode
  by_cases hLt : before.length < front.length
  · obtain ⟨more, hMore⟩ := hHeading.within hName hFront.parens hFront.finished hCode
      (by rwa [length_codeOnly])
    have hCut := cut_of_endsLine hFront.endsLine back
    exact .inl ⟨(depthAt?_append_left hCut hLt).mp hDepth, before, heading, more, hMore, rfl,
      hApart, hHeading⟩
  · have hLength : (codeOnly front).length ≤ before.length := by
      rw [length_codeOnly]
      omega
    obtain ⟨between, rfl, hBack⟩ : ∃ between, before = codeOnly front ++ between ∧
        codeOnly back = between ++ (heading ++ rest) := by
      rcases List.append_eq_append_iff.mp hCode with ⟨between, hBoth⟩ | ⟨more, hFronts, hRest⟩
      · exact ⟨between, hBoth⟩
      · have hNil : more = [] := by
          rw [hFronts, List.length_append] at hLength
          exact List.length_eq_zero_iff.mp (by omega)
        subst hNil
        rw [List.append_nil] at hFronts
        exact ⟨[], by simp [hFronts], by simpa using hRest.symm⟩
    refine .inr ⟨between.length, ?_, between, heading, rest, hBack, rfl, fun c hc => ?_, hHeading⟩
    · obtain ⟨c, others, rfl, -⟩ := isHeading_cons hName hHeading
      have hPlace : between.length < back.length := by
        rw [← length_codeOnly back, hBack]
        simp
      rw [List.length_append, length_codeOnly] at hDepth
      exact (depthAt?_append_right hFront.closed hFront.endsLine hPlace).mp hDepth
    · refine hApart c ?_
      rw [List.getLast?_append, Option.mem_def.mp hc]
      rfl

/-- Blanks declare nothing. -/
theorem not_declaresAt_blanks {name blanks : Text} (hName : IsMethodName name)
    (h : ∀ c ∈ blanks, Text.isBlank c = true) (position : Nat) :
    ¬DeclaresAt name blanks position := by
  rintro ⟨-, before, heading, rest, hCode, -, -, hHeading⟩
  obtain ⟨c, others, rfl, hc⟩ := isHeading_cons hName hHeading
  have hBlank := Reader.isBlank_codeView h Reader.start c (by
    rw [show Reader.start.codeView blanks = _ from hCode]
    simp)
  rw [hc] at hBlank
  cases hBlank

/-- What no member of a row declares is not declared in the row. -/
theorem not_declaresAt_flatten {name tail : Text} {members : List Text} (hName : IsMethodName name)
    (hWhole : ∀ member ∈ members, IsWhole member)
    (hNone : ∀ member ∈ members, ∀ position, ¬DeclaresAt name member position)
    (hTail : ∀ c ∈ tail, Text.isBlank c = true) (position : Nat) :
    ¬DeclaresAt name (members.flatten ++ tail) position := by
  induction members generalizing position with
  | nil => exact not_declaresAt_blanks hName hTail position
  | cons member rest ih =>
    obtain ⟨hMember, hRest⟩ := List.forall_mem_cons.mp hWhole
    obtain ⟨hHere, hThere⟩ := List.forall_mem_cons.mp hNone
    rw [List.flatten_cons, List.append_assoc]
    intro hDeclares
    rcases hDeclares.of_append hName hMember with hFirst | ⟨behind, hBehind⟩
    · exact hHere position hFirst
    · exact ih hRest hThere behind hBehind

/-- Blanks behind a text change nothing in what it declares. -/
theorem declaresAt_append_blanks {name front blanks : Text} {position : Nat}
    (hName : IsMethodName name) (h : ∀ c ∈ blanks, Text.isBlank c = true) :
    DeclaresAt name (front ++ blanks) position ↔ DeclaresAt name front position := by
  have hCut := cut_of_isBlank front h
  have hCode : codeOnly (front ++ blanks) =
      codeOnly front ++ (Reader.start.after front).codeView blanks :=
    Reader.codeView_append _ hCut
  have hBehind := Reader.isBlank_codeView h (Reader.start.after front)
  -- a heading begins before its end
  have hPlace {before heading rest : Text} (hHeading : IsHeading name heading)
      (hEq : codeOnly front = before ++ (heading ++ rest)) : before.length < front.length := by
    obtain ⟨c, others, rfl, -⟩ := isHeading_cons hName hHeading
    rw [← length_codeOnly front, hEq]
    simp
  constructor
  · rintro ⟨hDepth, before, heading, rest, hEq, rfl, hApart, hHeading⟩
    obtain ⟨inner, c, rfl, hc⟩ := isHeading_concat hHeading
    rw [hCode, ← List.append_assoc, ← List.append_assoc, List.append_assoc _ [c]] at hEq
    obtain ⟨more, hFront, -⟩ := Text.exists_of_not_mem_back hEq.symm fun hMem => by
      have hBlank := hBehind c hMem
      rw [hc] at hBlank
      cases hBlank
    have hWithin : codeOnly front = before ++ ((inner ++ [c]) ++ more) := by simp [hFront]
    exact ⟨(depthAt?_append_left hCut (hPlace hHeading hWithin)).mp hDepth, before, inner ++ [c],
      more, hWithin, rfl, hApart, hHeading⟩
  · rintro ⟨hDepth, before, heading, rest, hEq, rfl, hApart, hHeading⟩
    refine ⟨(depthAt?_append_left hCut (hPlace hHeading hEq)).mpr hDepth, before, heading,
      rest ++ (Reader.start.after front).codeView blanks, ?_, rfl, hApart, hHeading⟩
    rw [hCode, hEq]
    simp

end XdrBindings.Code
