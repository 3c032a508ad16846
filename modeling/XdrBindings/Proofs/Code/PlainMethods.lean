import XdrBindings.Proofs.Code.Declared

/-!
# Methods that the removal recognises

A plain method is one that is written as the generators write methods: annotations on lines of
their own, perhaps `static`, a type, the name, parameters without a closing parenthesis among them,
perhaps `async`, and a body in braces or behind an arrow.  All up to the body is its heading.
Whatever stands behind it, the heading is recognised with exactly its own length.

Type arguments are the one part that is read in more than one way, since the brackets that close
them are not matched.  The last closing bracket in front of the name is tried first, and in a plain
method it is the right one.

## Main results

* `TypeName.afterType_text` — where a type ends.
* `AnnotationLine.annotationLine?_text` — an annotation on its line.
* `Heading.declaration?_text` — the heading of a plain method is recognised.
-/

namespace XdrBindings.Text

theorem afterBlanks?_append {blanks back : Text} (hSome : blanks ≠ [])
    (hBlanks : ∀ c ∈ blanks, isBlank c = true) (hBack : ∀ c ∈ back.head?, isBlank c = false) :
    afterBlanks? (blanks ++ back) = some back := by
  obtain ⟨c, rest, rfl⟩ := List.exists_cons_of_ne_nil hSome
  obtain ⟨hc, hRest⟩ := List.forall_mem_cons.mp hBlanks
  rw [List.cons_append, afterBlanks?, if_pos hc, trimStart_append hRest]
  cases back with
  | nil => rfl
  | cons d more => rw [trimStart_eq_self (hBack d rfl)]

theorem startsWith_self_append (part back : Text) : startsWith (part ++ back) part = true :=
  List.isPrefixOf_iff_prefix.mpr (List.prefix_append part back)

/-- What holds of the characters of a front and of the first one behind it, holds of the first one
of both. -/
theorem forall_head?_append {p : Char → Prop} {front back : Text} (hFront : ∀ c ∈ front, p c)
    (hBack : ∀ c ∈ back.head?, p c) : ∀ c ∈ (front ++ back).head?, p c := by
  cases front with
  | nil => exact hBack
  | cons c rest =>
    intro d hd
    exact hFront d (by simpa [eq_comm] using Or.inl hd)

/-- The characters of one sort at the front of a text are dropped. -/
theorem dropWhile_append_of_head {p : Char → Bool} {front back : Text}
    (hFront : ∀ c ∈ front, p c = true) (hBack : ∀ c ∈ back.head?, p c = false) :
    (front ++ back).dropWhile p = back := by
  rw [List.dropWhile_append_of_pos hFront]
  cases back with
  | nil => rfl
  | cons c rest => exact List.dropWhile_cons_of_neg (by simp [hBack c rfl])

end XdrBindings.Text

namespace XdrBindings.Code

/-! ## Sorts of characters -/

theorem isBlank_of_isIndentation {c : Char} (h : isIndentation c = true) :
    Text.isBlank c = true := by
  have hEither : c = ' ' ∨ c = '\t' := by simpa [isIndentation] using h
  rcases hEither with rfl | rfl <;> rfl

/-- What is no blank is no indentation. -/
theorem isIndentation_of_isBlank {c : Char} (h : Text.isBlank c = false) :
    isIndentation c = false := by
  cases hc : isIndentation c with
  | false => rfl
  | true =>
    have hBlank := isBlank_of_isIndentation hc
    rw [h] at hBlank
    cases hBlank

theorem isTypeChar_of_isBlank {c : Char} (h : Text.isBlank c = true) : isTypeChar c = false := by
  have hNe : c ≠ '$' := by
    rintro rfl
    cases h
  simp [isTypeChar, isWord_of_isBlank h, hNe]

theorem isBlank_of_isTypeChar {c : Char} (h : isTypeChar c = true) : Text.isBlank c = false := by
  cases hc : Text.isBlank c with
  | false => rfl
  | true =>
    rw [isTypeChar_of_isBlank hc] at h
    cases h

/-! ## Parts of a signature -/

theorem afterParens?_append {parameters : Text} (h : ')' ∉ parameters) (back : Text) :
    afterParens? ('(' :: (parameters ++ ')' :: back)) = some back := by
  have hDrop : (parameters ++ ')' :: back).dropWhile (· != ')') = ')' :: back := by
    refine Text.dropWhile_append_of_head (fun c hc => ?_) fun c hc => ?_
    · rw [bne_iff_ne]
      rintro rfl
      exact h hc
    · cases hc
      rfl
  rw [afterParens?, hDrop]

/-- An annotation with a line of its own. -/
structure AnnotationLine where
  indent : Text
  name : Text
  arguments : Option Text
  trail : Text
  isIndentation_indent : ∀ c ∈ indent, isIndentation c = true
  isMethodName : IsMethodName name
  not_mem_arguments : ∀ inner ∈ arguments, ')' ∉ inner
  isIndentation_trail : ∀ c ∈ trail, isIndentation c = true

namespace AnnotationLine

/-- The arguments in parentheses, where there are any. -/
def written (tag : AnnotationLine) : Text :=
  tag.arguments.elim [] fun inner => '(' :: (inner ++ [')'])

/-- The line of an annotation. -/
def text (tag : AnnotationLine) : Text :=
  tag.indent ++ '@' ::
    (tag.name ++ (tag.written ++ (tag.trail ++ ['\n'])))

theorem text_append (tag : AnnotationLine) (back : Text) :
    tag.text ++ back = tag.indent ++ '@' ::
      (tag.name ++ (tag.written ++ (tag.trail ++ '\n' :: back))) := by
  simp [text]

/-- Behind the arguments comes the end of the line, which opens no parenthesis. -/
theorem head?_trail (tag : AnnotationLine) (back : Text) :
    ∀ c ∈ (tag.trail ++ '\n' :: back).head?, Text.isWord c = false ∧ c ≠ '(' := by
  refine Text.forall_head?_append (fun c hc => ?_) fun c hc => ?_
  · have hEither : c = ' ' ∨ c = '\t' := by
      simpa [isIndentation] using tag.isIndentation_trail c hc
    rcases hEither with rfl | rfl <;> exact ⟨by decide, by decide⟩
  · cases hc
    exact ⟨by decide, by decide⟩

/-- The name is read up to the arguments or the end of the line. -/
theorem head?_written (tag : AnnotationLine) (back : Text) :
    ∀ c ∈ (tag.written ++ (tag.trail ++ '\n' :: back)).head?, Text.isWord c = false := by
  unfold written
  cases tag.arguments with
  | none =>
    rw [Option.elim_none, List.nil_append]
    exact fun c hc => (tag.head?_trail back c hc).1
  | some inner =>
    rintro c ⟨⟩
    rfl

/-- The arguments are passed over where there are any. -/
theorem behind_written (tag : AnnotationLine) (back : Text) :
    (if (tag.written ++ (tag.trail ++ '\n' :: back)).head? = some '(' then
      afterParens? (tag.written ++ (tag.trail ++ '\n' :: back))
    else some (tag.written ++ (tag.trail ++ '\n' :: back))) =
      some (tag.trail ++ '\n' :: back) := by
  unfold written
  cases hArguments : tag.arguments with
  | none =>
    rw [Option.elim_none, List.nil_append]
    exact if_neg fun hHead => (tag.head?_trail back '(' hHead).2 rfl
  | some inner =>
    rw [Option.elim_some, List.cons_append, List.append_assoc, List.singleton_append]
    exact (if_pos rfl).trans (afterParens?_append (tag.not_mem_arguments inner hArguments) _)

/-- An annotation line is passed over, whatever stands behind it. -/
theorem annotationLine?_text (tag : AnnotationLine) (back : Text) :
    annotationLine? (tag.text ++ back) = some back := by
  obtain ⟨hSome, hWord⟩ := tag.isMethodName
  have hLine : (tag.text ++ back).dropWhile isIndentation =
      '@' :: (tag.name ++ (tag.written ++ (tag.trail ++ '\n' :: back))) := by
    rw [text_append]
    exact Text.dropWhile_append_of_head tag.isIndentation_indent fun c hc => by
      cases hc
      rfl
  have hFirst : (tag.name ++ (tag.written ++ (tag.trail ++ '\n' :: back))).head?.any Text.isWord =
      true := by
    obtain ⟨c, rest, hCons⟩ := List.exists_cons_of_ne_nil hSome
    rw [hCons, List.cons_append, List.head?_cons, Option.any_some]
    exact hWord c (by rw [hCons]; exact List.mem_cons_self)
  have hNamed := Text.dropWhile_append_of_head hWord (tag.head?_written back)
  have hEnd : (tag.trail ++ '\n' :: back).dropWhile isIndentation = '\n' :: back :=
    Text.dropWhile_append_of_head tag.isIndentation_trail fun c hc => by
      cases hc
      rfl
  simp only [annotationLine?, hLine, hFirst, hNamed, if_true, tag.behind_written, Option.bind_some,
    hEnd]

end AnnotationLine

theorem afterAnnotations_of_eq_some {text rest : Text} (h : annotationLine? text = some rest) :
    afterAnnotations text = afterAnnotations rest := by
  rw [afterAnnotations]
  split
  · rename_i other hOther
    rw [Option.some.inj (hOther.symm.trans h)]
  · rename_i hNone
    rw [h] at hNone
    cases hNone

theorem afterAnnotations_of_eq_none {text : Text} (h : annotationLine? text = none) :
    afterAnnotations text = text := by
  rw [afterAnnotations]
  split
  · rename_i other hOther
    rw [h] at hOther
    cases hOther
  · rfl

/-- All annotation lines in front of another line are passed over. -/
theorem afterAnnotations_append (annotations : List AnnotationLine) {line : Text}
    (hLine : annotationLine? line = none) :
    afterAnnotations (annotations.flatMap AnnotationLine.text ++ line) = line := by
  induction annotations with
  | nil => exact afterAnnotations_of_eq_none hLine
  | cons tag rest ih =>
    rw [List.flatMap_cons, List.append_assoc,
      afterAnnotations_of_eq_some (tag.annotationLine?_text _), ih]

/-! ## Types -/

/-- The name of a type: perhaps with type arguments in angle brackets, and perhaps nullable. -/
structure TypeName where
  head : Text
  arguments : Option Text
  nullable : Bool
  head_ne_nil : head ≠ []
  isTypeChar_head : ∀ c ∈ head, isTypeChar c = true
  isArgumentChar_arguments : ∀ inner ∈ arguments, ∀ c ∈ inner, isArgumentChar c = true

/-- Characters that are passed over on the way from the end of a type to a parenthesis. -/
theorem argumentEnds_append {quiet : Text}
    (h : ∀ c ∈ quiet, isArgumentChar c = true ∧ c ≠ '>') (ends : List Text) (rest : Text) :
    argumentEnds ends (quiet ++ rest) = argumentEnds ends rest := by
  induction quiet with
  | nil => rfl
  | cons c more ih =>
    obtain ⟨⟨hArgument, hNe⟩, hMore⟩ := List.forall_mem_cons.mp h
    rw [List.cons_append, argumentEnds, if_pos hArgument, if_neg hNe, ih hMore]

/-- The last bracket in front of a parenthesis is the first that is tried. -/
theorem exists_argumentEnds {inner quiet : Text} (hInner : ∀ c ∈ inner, isArgumentChar c = true)
    (hQuiet : ∀ c ∈ quiet, isArgumentChar c = true ∧ c ≠ '>') (ends : List Text) (back : Text) :
    ∃ others, argumentEnds ends (inner ++ '>' :: (quiet ++ '(' :: back)) =
      (quiet ++ '(' :: back) :: others := by
  induction inner generalizing ends with
  | nil =>
    have hStop (ends : List Text) : argumentEnds ends ('(' :: back) = ends := rfl
    refine ⟨ends, ?_⟩
    rw [List.nil_append, argumentEnds, if_pos (by decide), if_pos rfl, argumentEnds_append hQuiet,
      hStop]
  | cons c rest ih =>
    obtain ⟨hc, hRest⟩ := List.forall_mem_cons.mp hInner
    rw [List.cons_append, argumentEnds, if_pos hc]
    exact ih hRest _

theorem afterArguments_of_head? {text : Text} (h : ∀ c ∈ text.head?, c ≠ '<') :
    afterArguments text = [text] := by
  unfold afterArguments
  split
  · exact absurd rfl (h '<' rfl)
  · rfl

theorem afterNullable_of_head? {text : Text} (h : ∀ c ∈ text.head?, c ≠ '?') :
    afterNullable text = text := by
  unfold afterNullable
  split
  · exact absurd rfl (h '?' rfl)
  · rfl

namespace TypeName

/-- The type arguments in brackets, where there are any. -/
def written (type : TypeName) : Text := type.arguments.elim [] fun inner => '<' :: (inner ++ ['>'])

/-- The mark of a nullable type. -/
def mark (type : TypeName) : Text := if type.nullable then ['?'] else []

/-- What is written behind the head of a type. -/
def suffix (type : TypeName) : Text := type.written ++ type.mark

def text (type : TypeName) : Text := type.head ++ type.suffix

theorem exists_cons (type : TypeName) :
    ∃ c rest, type.text = c :: rest ∧ isTypeChar c = true := by
  obtain ⟨c, rest, hHead⟩ := List.exists_cons_of_ne_nil type.head_ne_nil
  exact ⟨c, rest ++ type.suffix, by rw [text, hHead, List.cons_append],
    type.isTypeChar_head c (by rw [hHead]; exact List.mem_cons_self)⟩

theorem eq_of_mem_mark {type : TypeName} {c : Char} (h : c ∈ type.mark) : c = '?' := by
  unfold mark at h
  split at h
  · exact List.mem_singleton.mp h
  · cases h

/-- Behind the head of a type, if anything is written there, stands a bracket or question mark. -/
theorem head?_suffix (type : TypeName) :
    ∀ c ∈ type.suffix.head?, isTypeChar c = false ∧ Text.isBlank c = false := by
  unfold suffix written
  cases type.arguments with
  | some inner =>
    rintro c ⟨⟩
    exact ⟨by decide, rfl⟩
  | none =>
    intro c hc
    obtain rfl := eq_of_mem_mark (List.mem_of_mem_head? hc)
    exact ⟨by decide, rfl⟩

/-- The head of a type is read up to what is written behind it. -/
theorem span_text (type : TypeName) {back : Text} (hBack : ∀ c ∈ back.head?, isTypeChar c = false) :
    (type.text ++ back).takeWhile isTypeChar = type.head ∧
      (type.text ++ back).dropWhile isTypeChar = type.suffix ++ back := by
  have hHead : ∀ c ∈ (type.suffix ++ back).head?, isTypeChar c = false := by
    cases hSuffix : type.suffix with
    | nil => exact hBack
    | cons d rest =>
      intro c hc
      exact (type.head?_suffix c (by rw [hSuffix]; exact hc)).1
  rw [text, List.append_assoc]
  exact ⟨Text.takeWhile_append_of_head type.isTypeChar_head hHead,
    Text.dropWhile_append_of_head type.isTypeChar_head hHead⟩

/-- Up to the parenthesis no bracket but that of the type arguments closes, so the text behind them
is tried first. -/
theorem afterArguments_written (type : TypeName) {quiet : Text}
    (hQuiet : ∀ c ∈ quiet, isArgumentChar c = true ∧ c ≠ '>') (back : Text)
    (hFirst : ∀ c ∈ (quiet ++ '(' :: back).head?, Text.isBlank c = true) :
    ∃ others, afterArguments (type.written ++ (type.mark ++ (quiet ++ '(' :: back))) =
      (type.mark ++ (quiet ++ '(' :: back)) :: others := by
  unfold written
  cases hArguments : type.arguments with
  | none =>
    rw [Option.elim_none, List.nil_append]
    refine ⟨[], afterArguments_of_head? (Text.forall_head?_append ?_ ?_)⟩
    · intro c hc
      rw [eq_of_mem_mark hc]
      decide
    · rintro c hc rfl
      cases hFirst '<' hc
  | some inner =>
    have hMark : ∀ c ∈ type.mark ++ quiet, isArgumentChar c = true ∧ c ≠ '>' := by
      intro c hc
      rcases List.mem_append.mp hc with hMem | hMem
      · rw [eq_of_mem_mark hMem]
        exact ⟨by decide, by decide⟩
      · exact hQuiet c hMem
    obtain ⟨others, hOthers⟩ := exists_argumentEnds
      (type.isArgumentChar_arguments inner hArguments) hMark [] back
    rw [List.append_assoc] at hOthers
    exact ⟨others, by simpa [afterArguments] using hOthers⟩

/-- Behind a type the rest of a signature may stand, and that is tried first. -/
theorem afterType_text (type : TypeName) {quiet : Text}
    (hQuiet : ∀ c ∈ quiet, isArgumentChar c = true ∧ c ≠ '>')
    (hSome : quiet ≠ []) (hBlank : ∀ c ∈ quiet.head?, Text.isBlank c = true) (back : Text) :
    ∃ others,
      afterType (type.text ++ (quiet ++ '(' :: back)) = (quiet ++ '(' :: back) :: others := by
  have hFirst : ∀ c ∈ (quiet ++ '(' :: back).head?, Text.isBlank c = true := by
    rwa [List.head?_append_of_ne_nil _ hSome]
  have hStarts : (type.text ++ (quiet ++ '(' :: back)).head?.any isTypeChar = true := by
    obtain ⟨c, rest, hText, hc⟩ := type.exists_cons
    rw [hText, List.cons_append, List.head?_cons, Option.any_some, hc]
  have hNullable : afterNullable (type.mark ++ (quiet ++ '(' :: back)) = quiet ++ '(' :: back := by
    unfold mark
    split
    · rfl
    · refine afterNullable_of_head? ?_
      rintro c hc rfl
      cases hFirst '?' hc
  obtain ⟨others, hOthers⟩ := type.afterArguments_written hQuiet back hFirst
  refine ⟨others.map afterNullable, ?_⟩
  rw [afterType, if_pos hStarts, (type.span_text fun c hc => isTypeChar_of_isBlank (hFirst c hc)).2,
    suffix, List.append_assoc, hOthers, List.map_cons, hNullable]

end TypeName

/-! ## Headings -/

/-- The heading of a plain method: all that is written from its annotations through the mark of its
body. -/
structure Heading where
  annotations : List AnnotationLine
  indent : Text
  /-- The blanks behind `static`, where that is written. -/
  static : Option Text
  type : TypeName
  gap : Text
  name : Text
  space : Text
  parameters : Text
  pause : Text
  /-- The blanks behind `async`, where that is written. -/
  async : Option Text
  mark : BodyMark
  isIndentation_indent : ∀ c ∈ indent, isIndentation c = true
  isBlank_static : ∀ blanks ∈ static, blanks ≠ [] ∧ ∀ c ∈ blanks, Text.isBlank c = true
  type_ne_static : static = none → type.text ≠ "static".toList
  gap_ne_nil : gap ≠ []
  isBlank_gap : ∀ c ∈ gap, Text.isBlank c = true
  isMethodName : IsMethodName name
  isBlank_space : ∀ c ∈ space, Text.isBlank c = true
  not_mem_parameters : ')' ∉ parameters
  isBlank_pause : ∀ c ∈ pause, Text.isBlank c = true
  isBlank_async : ∀ blanks ∈ async, ∀ c ∈ blanks, Text.isBlank c = true

theorem BodyMark.exists_cons (mark : BodyMark) :
    ∃ c rest, mark.text = c :: rest ∧ Text.isBlank c = false ∧ c ≠ 'a' := by
  cases mark with
  | brace => exact ⟨'{', [], rfl, rfl, by decide⟩
  | arrow => exact ⟨'=', ['>'], rfl, rfl, by decide⟩

theorem BodyMark.bodyMark?_text (mark : BodyMark) (back : Text) :
    bodyMark? (mark.text ++ back) = some (mark, back) := by
  cases mark <;> rfl

namespace Heading

def keyword (heading : Heading) : Text := heading.static.elim [] ("static".toList ++ ·)

def modifier (heading : Heading) : Text := heading.async.elim [] ("async".toList ++ ·)

/-- What is written behind the parenthesis that opens the parameters. -/
def ending (heading : Heading) : Text :=
  heading.parameters ++ ')' :: (heading.pause ++ (heading.modifier ++ heading.mark.text))

/-- What is written between the type and that parenthesis. -/
def naming (heading : Heading) : Text := heading.gap ++ (heading.name ++ heading.space)

/-- What is written from the type on. -/
def signature (heading : Heading) : Text :=
  heading.type.text ++ (heading.naming ++ '(' :: heading.ending)

def text (heading : Heading) : Text :=
  heading.annotations.flatMap AnnotationLine.text ++
    (heading.indent ++ (heading.keyword ++ heading.signature))

/-- The text behind the parameters is read through the mark. -/
theorem bodyMark?_modifier (heading : Heading) (back : Text) :
    bodyMark? (afterAsync (Text.trimStart
      (heading.pause ++ (heading.modifier ++ (heading.mark.text ++ back))))) =
        some (heading.mark, back) := by
  obtain ⟨c, rest, hMark, hBlank, hNe⟩ := heading.mark.exists_cons
  have hStop : Text.trimStart (heading.mark.text ++ back) = heading.mark.text ++ back := by
    rw [hMark, List.cons_append, Text.trimStart_eq_self hBlank]
  rw [Text.trimStart_append heading.isBlank_pause, modifier]
  cases hAsync : heading.async with
  | none =>
    have hNoAsync : Text.startsWith (heading.mark.text ++ back) "async".toList = false := by
      rw [hMark]
      exact Bool.eq_false_iff.mpr fun hStarts =>
        hNe (List.cons_prefix_cons.mp (List.isPrefixOf_iff_prefix.mp hStarts)).1.symm
    rw [Option.elim_none, List.nil_append, hStop, afterAsync, if_neg (by rw [hNoAsync]; decide),
      BodyMark.bodyMark?_text]
  | some blanks =>
    have hBlanks := heading.isBlank_async blanks hAsync
    have hWord : Text.trimStart ("async".toList ++ (blanks ++ (heading.mark.text ++ back))) =
        "async".toList ++ (blanks ++ (heading.mark.text ++ back)) := rfl
    have hDrop : ("async".toList ++ (blanks ++ (heading.mark.text ++ back))).drop 5 =
        blanks ++ (heading.mark.text ++ back) := rfl
    rw [Option.elim_some, List.append_assoc, hWord, afterAsync,
      if_pos (Text.startsWith_self_append _ _), hDrop, Text.trimStart_append hBlanks, hStop,
      BodyMark.bodyMark?_text]

/-- Between the type and the parenthesis nothing closes a bracket. -/
theorem isArgumentChar_naming (heading : Heading) :
    ∀ c ∈ heading.naming, isArgumentChar c = true ∧ c ≠ '>' := by
  have hBlank {c : Char} (hc : Text.isBlank c = true) : isArgumentChar c = true ∧ c ≠ '>' := by
    refine ⟨by simp [isArgumentChar, hc], ?_⟩
    rintro rfl
    cases hc
  intro c hc
  rcases List.mem_append.mp hc with hGap | hRest
  · exact hBlank (heading.isBlank_gap c hGap)
  · rcases List.mem_append.mp hRest with hMem | hSpace
    · have hWord := heading.isMethodName.2 c hMem
      refine ⟨by simp [isArgumentChar, isTypeChar, hWord], ?_⟩
      rintro rfl
      cases hWord
    · exact hBlank (heading.isBlank_space c hSpace)

/-- A blank stands behind the type. -/
theorem exists_naming_cons (heading : Heading) :
    ∃ c rest, heading.naming = c :: rest ∧ Text.isBlank c = true := by
  obtain ⟨c, rest, hGap⟩ := List.exists_cons_of_ne_nil heading.gap_ne_nil
  exact ⟨c, rest ++ (heading.name ++ heading.space), by rw [naming, hGap, List.cons_append],
    heading.isBlank_gap c (by rw [hGap]; exact List.mem_cons_self)⟩

theorem typedDeclaration?_signature (heading : Heading) (back : Text) :
    typedDeclaration? heading.name (heading.signature ++ back) = some (heading.mark, back) := by
  obtain ⟨first, rest, hName, hFirst⟩ := heading.isMethodName.exists_cons
  obtain ⟨blank, more, hNaming, hBlank⟩ := heading.exists_naming_cons
  obtain ⟨others, hType⟩ := heading.type.afterType_text heading.isArgumentChar_naming
    (by rw [hNaming]; exact List.cons_ne_nil _ _) (by rw [hNaming]; rintro c ⟨⟩; exact hBlank)
    (heading.ending ++ back)
  have hText : heading.signature ++ back =
      heading.type.text ++ (heading.naming ++ '(' :: (heading.ending ++ back)) := by
    simp [signature]
  have hNamed : Text.afterBlanks? (heading.naming ++ '(' :: (heading.ending ++ back)) =
      some (heading.name ++ (heading.space ++ '(' :: (heading.ending ++ back))) := by
    rw [naming, List.append_assoc, List.append_assoc]
    refine Text.afterBlanks?_append heading.gap_ne_nil heading.isBlank_gap ?_
    rw [hName]
    rintro c ⟨⟩
    exact hFirst
  have hOpen : Text.trimStart (heading.space ++ '(' :: (heading.ending ++ back)) =
      '(' :: (heading.ending ++ back) := by
    rw [Text.trimStart_append heading.isBlank_space]
    exact Text.trimStart_eq_self rfl
  have hClosed : afterParens? ('(' :: (heading.ending ++ back)) =
      some (heading.pause ++ (heading.modifier ++ (heading.mark.text ++ back))) := by
    rw [ending, List.append_assoc, List.cons_append, List.append_assoc, List.append_assoc]
    exact afterParens?_append heading.not_mem_parameters _
  have hStarts := Text.startsWith_self_append heading.name
    (heading.space ++ '(' :: (heading.ending ++ back))
  rw [typedDeclaration?, hText, hType, List.findSome?_cons, hNamed]
  have hGuard : (guard (true = true) : Option Unit) = some () := rfl
  dsimp only [Option.bind_eq_bind, Option.bind_some]
  rw [hStarts, hGuard, Option.bind_some, List.drop_left, hOpen, hClosed, Option.bind_some,
    heading.bodyMark?_modifier back]

theorem exists_signature_cons (heading : Heading) :
    ∃ c rest, heading.signature = c :: rest ∧ isTypeChar c = true := by
  obtain ⟨c, rest, hType, hc⟩ := heading.type.exists_cons
  exact ⟨c, _, by rw [signature, hType, List.cons_append], hc⟩

end Heading

/-! ## Recognition -/

theorem exists_of_afterStatic? {text rest : Text} (h : afterStatic? text = some rest) :
    ∃ c behind, text = "static".toList ++ c :: behind ∧ Text.isBlank c = true := by
  unfold afterStatic? at h
  split at h
  swap
  · cases h
  rename_i hStarts
  obtain ⟨behind, rfl⟩ := List.isPrefixOf_iff_prefix.mp hStarts
  change Text.afterBlanks? behind = some rest at h
  unfold Text.afterBlanks? at h
  split at h
  swap
  · cases h
  rename_i c behind
  split at h
  · rename_i hc
    exact ⟨c, behind, rfl, hc⟩
  · cases h

namespace Heading

/-- A type that begins with the word `static` is not taken for the keyword. -/
theorem afterStatic?_signature {heading : Heading} (h : heading.static = none) (back : Text) :
    afterStatic? (heading.signature ++ back) = none := by
  cases hStatic : afterStatic? (heading.signature ++ back) with
  | none => rfl
  | some rest =>
    exfalso
    obtain ⟨c, behind, hText, hc⟩ := exists_of_afterStatic? hStatic
    obtain ⟨blank, more, hNaming, hBlank⟩ := heading.exists_naming_cons
    have hSignature : heading.signature ++ back =
        heading.type.text ++ (blank :: more ++ '(' :: heading.ending ++ back) := by
      simp [signature, hNaming]
    have hGap : ∀ d ∈ (blank :: more ++ '(' :: heading.ending ++ back).head?,
        isTypeChar d = false := by
      rintro d ⟨⟩
      exact isTypeChar_of_isBlank hBlank
    have hBehind : ∀ d ∈ (c :: behind).head?, isTypeChar d = false := by
      rintro d ⟨⟩
      exact isTypeChar_of_isBlank hc
    -- the run of the characters of types is the head of the type, and it is the word
    obtain ⟨hHead, hRest⟩ := heading.type.span_text hGap
    rw [← hSignature, hText, Text.takeWhile_append_of_head (by decide) hBehind] at hHead
    rw [← hSignature, hText, Text.dropWhile_append_of_head (by decide) hBehind] at hRest
    cases hSuffix : heading.type.suffix with
    | nil => exact heading.type_ne_static h (by rw [TypeName.text, hSuffix, ← hHead]; rfl)
    | cons d others =>
      rw [hSuffix] at hRest
      obtain ⟨rfl, -⟩ := List.cons.inj hRest
      have hNoBlank := (heading.type.head?_suffix c (by rw [hSuffix]; rfl)).2
      rw [hc] at hNoBlank
      cases hNoBlank

/-- With the keyword or without it the signature is recognised. -/
theorem typedDeclaration?_keyword (heading : Heading) (back : Text) :
    ((afterStatic? (heading.keyword ++ (heading.signature ++ back))).bind
      (typedDeclaration? heading.name)).or
        (typedDeclaration? heading.name (heading.keyword ++ (heading.signature ++ back))) =
      some (heading.mark, back) := by
  have hTyped := heading.typedDeclaration?_signature back
  unfold keyword
  cases hStatic : heading.static with
  | none =>
    rw [Option.elim_none, List.nil_append, afterStatic?_signature hStatic, hTyped]
    rfl
  | some blanks =>
    obtain ⟨hSome, hBlanks⟩ := heading.isBlank_static blanks hStatic
    have hBehind : afterStatic? ("static".toList ++ blanks ++ (heading.signature ++ back)) =
        some (heading.signature ++ back) := by
      rw [List.append_assoc, afterStatic?, if_pos (Text.startsWith_self_append _ _)]
      refine Text.afterBlanks?_append hSome hBlanks fun c hc => ?_
      obtain ⟨first, others, hSignature, hFirst⟩ := heading.exists_signature_cons
      rw [hSignature] at hc
      cases hc
      exact isBlank_of_isTypeChar hFirst
    rw [Option.elim_some, hBehind, Option.bind_some, hTyped, Option.some_or]

/-- The line of the signature begins with a letter behind its indentation. -/
theorem exists_keyword_cons (heading : Heading) (back : Text) :
    ∃ c rest, heading.keyword ++ (heading.signature ++ back) = c :: rest ∧ isTypeChar c = true := by
  unfold keyword
  cases heading.static with
  | none =>
    obtain ⟨c, rest, hSignature, hc⟩ := heading.exists_signature_cons
    exact ⟨c, rest ++ back, by rw [Option.elim_none, hSignature]; rfl, hc⟩
  | some blanks => exact ⟨'s', _, rfl, by decide⟩

/-- The heading of a plain method is recognised at the beginning of a line, whatever stands behind
it. -/
theorem declaration?_text (heading : Heading) (back : Text) :
    declaration? heading.name (heading.text ++ back) =
      some ⟨heading.text.length, heading.mark⟩ := by
  obtain ⟨c, rest, hCons, hc⟩ := heading.exists_keyword_cons back
  have hLine : (heading.indent ++ (heading.keyword ++ (heading.signature ++ back))).dropWhile
      isIndentation = heading.keyword ++ (heading.signature ++ back) := by
    refine Text.dropWhile_append_of_head heading.isIndentation_indent fun d hd => ?_
    rw [hCons] at hd
    cases hd
    exact isIndentation_of_isBlank (isBlank_of_isTypeChar hc)
  have hNoTag : annotationLine?
      (heading.indent ++ (heading.keyword ++ (heading.signature ++ back))) = none := by
    unfold annotationLine?
    rw [hLine, hCons]
    split
    · rename_i hAt
      obtain ⟨rfl, -⟩ := List.cons.inj hAt
      cases hc
    · rfl
  have hText : heading.text ++ back = heading.annotations.flatMap AnnotationLine.text ++
      (heading.indent ++ (heading.keyword ++ (heading.signature ++ back))) := by
    simp [text]
  unfold declaration?
  rw [hText, afterAnnotations_append _ hNoTag, hLine]
  dsimp only
  rw [heading.typedDeclaration?_keyword, ← hText, List.length_append, Option.map_some,
    Nat.add_sub_cancel]

end Heading

end XdrBindings.Code
