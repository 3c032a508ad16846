import XdrBindings.Proofs.Code.PlainMethods

/-!
# What the removal of a method takes and leaves

A class body whose members are known is gone through member by member.  A plain method of the name
that is removed goes with its last newline, since its signature is recognised, it stands outside of
all blocks behind closed lines, and its body ends where it ends alone.  A member in which nothing
outside of all blocks is taken for a declaration of the name stays as it is.  So what is left are
the other members, in their order.

## Main results

* `BodyMark.end?_within` — the end of a body is found wherever the method stands.
* `PlainMethod.removeFrom_text`, `Settles.removeFrom_text` — one member.
* `withoutMethod_row` — one name.
* `foldl_withoutMethod_row` — one name after the other.
-/

namespace XdrBindings.Code

/-! ## Searches in a part of a text -/

theorem search_append {judge : Nat → Char → Judgement} {depth position : Nat}
    {units : List (Nat × Char)} (h : search judge depth units = some position)
    (more : List (Nat × Char)) : search judge depth (units ++ more) = some position := by
  induction units generalizing depth with
  | nil => cases h
  | cons unit rest ih =>
    rw [search] at h
    rw [List.cons_append, search]
    cases hJudge : judge depth unit.2 with
    | go next =>
      rw [hJudge] at h
      exact ih h
    | found =>
      rw [hJudge] at h
      exact h
    | lost =>
      rw [hJudge] at h
      cases h

theorem search_map_add (judge : Nat → Char → Judgement) (depth count : Nat)
    (units : List (Nat × Char)) :
    search judge depth (units.map fun unit => (unit.1 + count, unit.2)) =
      (search judge depth units).map (· + count) := by
  induction units generalizing depth with
  | nil => rfl
  | cons unit rest ih =>
    rw [List.map_cons, search, search]
    cases judge depth unit.2 with
    | go next => exact ih next
    | found => rfl
    | lost => rfl

/-- Behind a line no word has begun. -/
theorem Behind.ofText_append_line {front : Text} (hLine : Text.EndsLine front) (back : Text) :
    Behind.ofText (front ++ back) = Behind.ofText back := by
  rcases List.eq_nil_or_concat front with rfl | ⟨line, c, rfl⟩
  · rfl
  · obtain rfl : c = '\n' := hLine c (by simp)
    rw [List.concat_eq_append, ofText_append, ofText_append, after_cons,
      step_of_not_isNameChar _ rfl]
    rfl

/-- Behind a line a part is read from any of its places on as it is read alone. -/
theorem exists_codeUnitsAt {front middle back : Text} (hLine : Text.EndsLine front)
    (hBack : ∀ c ∈ back.head?, isPlain c = true) {position : Nat}
    (hPosition : position ≤ middle.length) :
    ∃ more, codeUnitsAt (front ++ (middle ++ back)) (front.length + position) =
      (codeUnitsAt middle position ++ more).map fun unit => (unit.1 + front.length, unit.2) := by
  have hTake : (front ++ (middle ++ back)).take (front.length + position) =
      front ++ middle.take position := by
    rw [List.take_length_add_append, List.take_append_of_le_length hPosition]
  have hDrop : (front ++ (middle ++ back)).drop (front.length + position) =
      middle.drop position ++ back := by
    rw [← List.drop_drop, List.drop_left, List.drop_append_of_le_length hPosition]
  refine ⟨((Reader.startingAt middle position).after (middle.drop position)).codeFrom
    (position + (middle.drop position).length) back, ?_⟩
  rw [codeUnitsAt, codeUnitsAt, Reader.startingAt, hTake, hDrop, Behind.ofText_append_line hLine,
    ← Reader.startingAt, Nat.add_comm front.length, Reader.codeFrom_add,
    Reader.codeFrom_append _ _ (.inl hBack)]

/-! ## The end of a body -/

/-- The position of the last character of a body whose mark ends at a position. -/
def BodyMark.end? (mark : BodyMark) (text : Text) (stop : Nat) : Option Nat :=
  match mark with
  | .brace => closingBrace? text (stop - 1)
  | .arrow => statementEnd? text stop

/-- A body ends where it ends alone. -/
theorem BodyMark.end?_within {mark : BodyMark} {front middle back : Text}
    (hLine : Text.EndsLine front) (hBack : ∀ c ∈ back.head?, isPlain c = true) {stop last : Nat}
    (hStop : 0 < stop) (hMiddle : stop ≤ middle.length) (h : mark.end? middle stop = some last) :
    mark.end? (front ++ (middle ++ back)) (front.length + stop) = some (front.length + last) := by
  cases mark with
  | brace =>
    have hPlace : front.length + stop - 1 = front.length + (stop - 1) := by omega
    obtain ⟨more, hUnits⟩ := exists_codeUnitsAt hLine hBack (by omega : stop - 1 ≤ middle.length)
    have hChar : (front ++ (middle ++ back))[front.length + (stop - 1)]? = middle[stop - 1]? := by
      rw [List.getElem?_append_right (by omega), Nat.add_sub_cancel_left,
        List.getElem?_append_left (by omega)]
    simp only [end?, closingBrace?_eq] at h
    split at h
    swap
    · cases h
    rename_i hBrace
    rw [end?, closingBrace?_eq, hPlace, hChar, if_pos hBrace, hUnits, search_map_add,
      search_append h, Option.map_some, Nat.add_comm]
  | arrow =>
    obtain ⟨more, hUnits⟩ := exists_codeUnitsAt hLine hBack hMiddle
    simp only [end?, statementEnd?_eq] at h
    rw [end?, statementEnd?_eq, hUnits, search_map_add, search_append h, Option.map_some,
      Nat.add_comm]

/-- A declaration ends behind its last line, if only blanks stand on the rest of that line. -/
theorem lineEndBehind_append (front : Text) (last : Char) {trail : Text}
    (hTrail : ∀ c ∈ trail, Text.isBlank c = true ∧ c ≠ '\n') (back : Text) :
    lineEndBehind (front ++ last :: (trail ++ '\n' :: back)) front.length =
      front.length + 1 + trail.length + 1 := by
  have hDrop : (front ++ last :: (trail ++ '\n' :: back)).drop (front.length + 1) =
      trail ++ '\n' :: back := by
    rw [← List.drop_drop, List.drop_left]
    rfl
  have hTake : (trail ++ '\n' :: back).takeWhile (· != '\n') = trail := by
    refine Text.takeWhile_append_of_head (fun c hc => by simpa using (hTrail c hc).2) ?_
    rintro c ⟨⟩
    rfl
  have hBlank : Text.isBlankText trail = true := List.all_eq_true.mpr fun c hc => (hTrail c hc).1
  have hShorter : trail.length < (trail ++ '\n' :: back).length := by
    rw [List.length_append, List.length_cons]
    omega
  rw [lineEndBehind, hDrop, hTake, hBlank, decide_eq_true hShorter]
  rfl

theorem removal?_eq (body : Text) (position : Nat) (declaration : Declaration) :
    removal? body position declaration =
      match declaration.mark.end? body (position + declaration.length) with
      | some last =>
        if depthAt? body position = some 0 then some (lineEndBehind body last - position) else none
      | none => none := rfl

/-- Nothing is removed within a block. -/
theorem removal?_eq_none {body : Text} {position : Nat} {declaration : Declaration}
    (h : depthAt? body position ≠ some 0) : removal? body position declaration = none := by
  rw [removal?_eq]
  split
  · rw [if_neg h]
  · rfl

/-- Behind closed lines a plain character is code outside of all blocks. -/
theorem IsClosed.depthAt?_length {front : Text} (h : IsClosed front) (hLine : Text.EndsLine front)
    {c : Char} (hc : isPlain c = true) (rest : Text) :
    depthAt? (front ++ c :: rest) front.length = some 0 := by
  have hZero : 0 < (c :: rest).length := Nat.zero_lt_succ _
  refine (depthAt?_append_right h hLine hZero).mpr ?_
  have hUnits : codeUnits (c :: rest) =
      [] ++ (0, c) :: (Reader.inCode (Behind.nothing.step c)).codeFrom 1 rest := by
    have hStep := Reader.step_inCode .nothing hc rest
    rw [codeUnits, Reader.start, Reader.codeFrom, hStep]
    rfl
  exact depthAt?_of_codeUnits_eq hUnits

/-! ## Plain methods -/

/-- A plain method: a heading, a body with its last character, and blanks to the end of the line. -/
structure PlainMethod where
  heading : Heading
  body : Text
  last : Char
  trail : Text
  ends : heading.mark.end? (heading.text ++ (body ++ [last])) heading.text.length =
    some (heading.text ++ body).length
  isBlank_trail : ∀ c ∈ trail, Text.isBlank c = true ∧ c ≠ '\n'

/-- A heading begins with a plain character: a blank, the mark of an annotation or a letter. -/
theorem Heading.exists_text_cons (heading : Heading) :
    ∃ c rest, heading.text = c :: rest ∧ isPlain c = true := by
  have hIndent {c : Char} (hc : isIndentation c = true) : isPlain c = true :=
    isPlain_of_isBlank (isBlank_of_isIndentation hc)
  obtain ⟨first, others, hLine, hFirst⟩ := heading.exists_keyword_cons []
  rw [List.append_nil] at hLine
  have hHead : ∀ c ∈ heading.text.head?, isPlain c = true := by
    unfold text
    cases heading.annotations with
    | nil =>
      rw [List.flatMap_nil, List.nil_append, hLine]
      refine Text.forall_head?_append (fun c hc => hIndent (heading.isIndentation_indent c hc)) ?_
      rintro c ⟨⟩
      exact isPlain_of_sort (by decide) hFirst
    | cons tag rest =>
      rw [List.flatMap_cons, List.append_assoc, AnnotationLine.text_append]
      refine Text.forall_head?_append
        (fun c hc => hIndent (tag.isIndentation_indent c hc)) ?_
      rintro c ⟨⟩
      rfl
  cases hText : heading.text with
  | nil =>
    have hNil := congrArg List.length hText
    rw [text, hLine] at hNil
    simp at hNil
  | cons c rest =>
    rw [hText] at hHead
    exact ⟨c, rest, rfl, hHead c rfl⟩

namespace PlainMethod

def text (method : PlainMethod) : Text :=
  method.heading.text ++ (method.body ++ method.last :: (method.trail ++ ['\n']))

/-- All of a plain method is taken, through the newline behind it. -/
theorem removal?_text (method : PlainMethod) {front : Text} (hFront : IsClosed front)
    (hLine : Text.EndsLine front) (back : Text) :
    removal? (front ++ (method.text ++ back)) front.length
      ⟨method.heading.text.length, method.heading.mark⟩ = some method.text.length := by
  obtain ⟨c, rest, hCons, hc⟩ := method.heading.exists_text_cons
  have hText : method.text ++ back = (method.heading.text ++ (method.body ++ [method.last])) ++
      (method.trail ++ '\n' :: back) := by
    simp [text]
  have hTrail : ∀ d ∈ (method.trail ++ '\n' :: back).head?, isPlain d = true :=
    Text.forall_head?_append (fun d hd => isPlain_of_isBlank (method.isBlank_trail d hd).1)
      fun d hd => by
        cases hd
        rfl
  have hEnd : method.heading.mark.end? (front ++ (method.text ++ back))
      (front.length + method.heading.text.length) =
        some (front.length + (method.heading.text ++ method.body).length) := by
    rw [hText]
    refine BodyMark.end?_within hLine hTrail ?_ ?_ method.ends
    · rw [hCons]
      exact Nat.zero_lt_succ _
    · rw [List.length_append]
      exact Nat.le_add_right _ _
  have hDepth : depthAt? (front ++ (method.text ++ back)) front.length = some 0 := by
    rw [text, hCons]
    exact hFront.depthAt?_length hLine hc _
  have hLast : front ++ (method.text ++ back) =
      (front ++ (method.heading.text ++ method.body)) ++
        method.last :: (method.trail ++ '\n' :: back) := by
    simp [text]
  have hBehind : lineEndBehind (front ++ (method.text ++ back))
      (front.length + (method.heading.text ++ method.body).length) =
        front.length + method.text.length := by
    rw [hLast, ← List.length_append, lineEndBehind_append _ _ method.isBlank_trail]
    simp only [text, List.length_append, List.length_cons, List.length_nil]
    omega
  rw [removal?_eq, hEnd]
  dsimp only
  rw [if_pos hDepth, hBehind, Nat.add_sub_cancel_left]

theorem exists_text_cons (method : PlainMethod) :
    ∃ c rest, method.text = c :: rest ∧ isPlain c = true := by
  obtain ⟨c, rest, hCons, hc⟩ := method.heading.exists_text_cons
  exact ⟨c, _, by rw [text, hCons, List.cons_append], hc⟩

/-- Behind closed lines a plain method of the name is removed. -/
theorem removeFrom_text (method : PlainMethod) {done : Text} (hDone : IsClosed done.reverse)
    (hLine : Text.EndsLine done.reverse) (back : Text) :
    removeFrom method.heading.name 0 0 done (method.text ++ back) =
      removeFrom method.heading.name 0 0 done back := by
  obtain ⟨c, rest, hCons, -⟩ := method.exists_text_cons
  have hStart : done.head?.all (· == '\n') = true := by
    cases done with
    | nil => rfl
    | cons d more => exact beq_iff_eq.mpr (hLine d (by simp))
  have hFound : declaration? method.heading.name (c :: (rest ++ back)) =
      some ⟨method.heading.text.length, method.heading.mark⟩ := by
    rw [← List.cons_append, ← hCons, text, List.append_assoc]
    exact method.heading.declaration?_text _
  have hTaken := method.removal?_text hDone hLine back
  rw [hCons, List.cons_append, List.length_reverse] at hTaken
  rw [hCons, List.cons_append, removeFrom, if_pos hStart, hFound]
  dsimp only
  rw [hTaken]
  dsimp only
  rw [removeFrom_drop, List.length_cons, Nat.add_sub_cancel, List.drop_left]

end PlainMethod

/-! ## Other members -/

/-- Whether nothing of a member is removed for a name, whatever stands behind the member: what is
recognised at the beginning of one of its lines ends within the member and stands within a block. -/
def Settles (name member : Text) : Prop :=
  ∀ front ahead, member = front ++ ahead → Text.EndsLine front →
    ∀ behind declaration, ahead ≠ [] → declaration? name (ahead ++ behind) = some declaration →
      declaration.length ≤ ahead.length ∧ depthAt? member front.length ≠ some 0

/-- In a text around the member, too, nothing is removed that is recognised at one of its lines. -/
theorem Settles.removal?_eq_none {name member front ahead behind : Text}
    {declaration : Declaration} (h : Settles name member) (hMember : Text.EndsLine member)
    (hSplit : member = front ++ ahead) (hFront : Text.EndsLine front) (hAhead : ahead ≠ [])
    (hFound : declaration? name (ahead ++ behind) = some declaration) {done : Text}
    (hDone : IsClosed done) (hLine : Text.EndsLine done) :
    declaration.length ≤ ahead.length ∧
      removal? (done ++ (member ++ behind)) (done.length + front.length) declaration = none := by
  obtain ⟨hWithin, hDepth⟩ := h front ahead hSplit hFront behind declaration hAhead hFound
  refine ⟨hWithin, Code.removal?_eq_none fun hZero => hDepth ?_⟩
  have hPlace : front.length < member.length := by
    rw [hSplit, List.length_append]
    exact Nat.lt_add_of_pos_right (List.length_pos_of_ne_nil hAhead)
  have hWhole : front.length < (member ++ behind).length := by
    rw [List.length_append]
    omega
  exact (depthAt?_append_left (cut_of_endsLine hMember behind) hPlace).mp
    ((depthAt?_append_right hDone hLine hWhole).mp hZero)

/-- Within the member nothing is taken: the reading goes on behind a part of it that stays. -/
theorem Settles.exists_removeFrom_cons {name member front rest : Text} {c : Char}
    (h : Settles name member) (hMember : Text.EndsLine member)
    (hSplit : member = front ++ c :: rest) {done : Text} (hDone : IsClosed done.reverse)
    (hLine : Text.EndsLine done.reverse) (back : Text) :
    ∃ count ≤ rest.length, removeFrom name 0 0 (front.reverse ++ done) (c :: (rest ++ back)) =
      removeFrom name 0 count (c :: (front.reverse ++ done)) (rest ++ back) := by
  rw [removeFrom]
  split
  · exact ⟨0, Nat.zero_le _, rfl⟩
  · rename_i declaration hFound
    split at hFound
    swap
    · cases hFound
    rename_i hStart
    have hFront : Text.EndsLine front := by
      intro d hd
      rw [List.head?_append, List.head?_reverse, Option.mem_def.mp hd] at hStart
      exact eq_of_beq hStart
    obtain ⟨hWithin, hStays⟩ := h.removal?_eq_none hMember hSplit hFront
      (List.cons_ne_nil _ _) (hFound : declaration? name (c :: rest ++ back) = _) hDone hLine
    have hText : (front.reverse ++ done).reverse ++ c :: (rest ++ back) =
        done.reverse ++ (member ++ back) := by
      rw [hSplit]
      simp
    have hPlace : (front.reverse ++ done).length = done.reverse.length + front.length := by
      simp [Nat.add_comm]
    rw [List.length_cons] at hWithin
    rw [hText, hPlace, hStays]
    exact ⟨declaration.length - 1, by omega, rfl⟩

/-- Behind closed lines a member stays in which nothing is removed. -/
theorem Settles.removeFrom_text {name member : Text} (h : Settles name member)
    (hMember : Text.EndsLine member) {done : Text} (hDone : IsClosed done.reverse)
    (hLine : Text.EndsLine done.reverse) (back : Text) :
    removeFrom name 0 0 done (member ++ back) =
      removeFrom name 0 0 (member.reverse ++ done) back := by
  -- the characters of the member that are passed over go behind, the others stay ahead
  have hAhead (front ahead : Text) (hSplit : member = front ++ ahead) :
      removeFrom name 0 0 (front.reverse ++ done) (ahead ++ back) =
        removeFrom name 0 0 (member.reverse ++ done) back := by
    induction hLength : ahead.length using Nat.strongRecOn generalizing front ahead with
    | ind length ih =>
      cases ahead with
      | nil =>
        rw [hSplit, List.append_nil]
        rfl
      | cons c rest =>
        obtain ⟨count, hCount, hStep⟩ := h.exists_removeFrom_cons hMember hSplit hDone hLine back
        have hOthers : member = (front ++ c :: rest.take count) ++ rest.drop count := by
          rw [List.append_assoc, List.cons_append, List.take_append_drop]
          exact hSplit
        rw [List.length_cons] at hLength
        have hShorter :=
          ih (rest.drop count).length (by rw [List.length_drop]; omega) _ _ hOthers rfl
        rw [List.cons_append, hStep, removeFrom_keep, List.take_append_of_le_length hCount,
          List.drop_append_of_le_length hCount, ← hShorter]
        simp
  exact hAhead [] member rfl

/-- Nothing of a member is removed if none of its lines begins a declaration. -/
theorem settles_ofLines {name : Text} {lines : List Text} (hLines : ∀ line ∈ lines, '\n' ∉ line)
    (h : ∀ line ∈ lines, ∀ behind, declaration? name (line ++ '\n' :: behind) = none) :
    Settles name (Text.ofLines lines) := by
  intro front ahead hSplit hFront behind declaration hAhead hFound
  have hChunks := Text.chunks_ofLines hLines
  rw [hSplit, Text.chunks_append hFront] at hChunks
  obtain ⟨earlier, later, rfl, -, hLater⟩ := List.map_eq_append_iff.mp hChunks.symm
  cases later with
  | nil => exact absurd (Text.chunks_eq_nil_iff.mp hLater.symm) hAhead
  | cons line rest =>
    have hText : ahead ++ behind =
        line ++ '\n' :: ((rest.map (· ++ ['\n'])).flatten ++ behind) := by
      rw [← Text.chunks_flatten ahead, ← hLater]
      simp
    rw [hText, h line (by simp)] at hFound
    cases hFound

/-! ## Blanks -/

/-- Where neither an annotation nor the type of a method begins, no declaration does. -/
theorem declaration?_eq_none {name text : Text} (hTag : annotationLine? text = none)
    (hStatic : afterStatic? (text.dropWhile isIndentation) = none)
    (hTyped : typedDeclaration? name (text.dropWhile isIndentation) = none) :
    declaration? name text = none := by
  unfold declaration?
  rw [afterAnnotations_of_eq_none hTag]
  dsimp only
  rw [hStatic, hTyped]
  rfl

theorem declaration?_of_blanks {blanks : Text} (h : ∀ c ∈ blanks, Text.isBlank c = true)
    (name : Text) : declaration? name blanks = none := by
  have hLine : ∀ c ∈ blanks.dropWhile isIndentation, Text.isBlank c = true := fun c hc =>
    h c (List.dropWhile_subset _ hc)
  have hNoTag : annotationLine? blanks = none := by
    unfold annotationLine?
    split
    · rename_i hAt
      have hBlank := hLine '@' (by rw [hAt]; exact List.mem_cons_self)
      cases hBlank
    · rfl
  have hTyped : typedDeclaration? name (blanks.dropWhile isIndentation) = none := by
    have hNoType : (blanks.dropWhile isIndentation).head?.any isTypeChar = false := by
      cases hText : blanks.dropWhile isIndentation with
      | nil => rfl
      | cons c rest =>
        rw [List.head?_cons, Option.any_some]
        exact isTypeChar_of_isBlank (hLine c (by rw [hText]; exact List.mem_cons_self))
    rw [typedDeclaration?, afterType, if_neg (by rw [hNoType]; decide)]
    rfl
  have hStatic : afterStatic? (blanks.dropWhile isIndentation) = none := by
    rw [afterStatic?, if_neg]
    intro hStarts
    obtain ⟨behind, hBehind⟩ := List.isPrefixOf_iff_prefix.mp hStarts
    have hBlank := hLine 's' (by rw [← hBehind]; simp)
    cases hBlank
  exact declaration?_eq_none hNoTag hStatic hTyped

theorem removeFrom_blanks {blanks : Text} (h : ∀ c ∈ blanks, Text.isBlank c = true)
    (name done : Text) : removeFrom name 0 0 done blanks = done.reverse ++ blanks := by
  induction blanks generalizing done with
  | nil => simp [removeFrom]
  | cons c rest ih =>
    have hRest := ih (List.forall_mem_cons.mp h).2 (c :: done)
    rw [removeFrom, declaration?_of_blanks h, ite_self]
    dsimp only
    rw [hRest]
    simp

/-! ## Rows of members -/

/-- A member of a class body: a plain method, or anything else. -/
inductive Member
  | plain (method : PlainMethod)
  | other (text : Text)

namespace Member

def text : Member → Text
  | plain method => method.text
  | other text => text

/-- The name of a plain method. -/
def name? : Member → Option Text
  | plain method => some method.heading.name
  | other _ => none

/-- Whether a member is a plain method of one of some names. -/
def isNamed (names : List Text) (member : Member) : Bool := member.name?.any names.contains

end Member

/-- Members one behind the other. -/
def rowText (members : List Member) : Text := (members.map Member.text).flatten

/-- Whether members can be taken out for a name: each keeps to itself, and those that are not plain
methods of the name have nothing that is removed. -/
structure Separates (name : Text) (members : List Member) : Prop where
  whole : ∀ member ∈ members, IsWhole member.text
  settles : ∀ member ∈ members, member.name? ≠ some name → Settles name member.text

theorem removeFrom_row {name tail : Text} {members : List Member} (h : Separates name members)
    (hTail : ∀ c ∈ tail, Text.isBlank c = true) {done : Text} (hDone : IsClosed done.reverse)
    (hLine : Text.EndsLine done.reverse) :
    removeFrom name 0 0 done (rowText members ++ tail) =
      done.reverse ++ (rowText (members.filter fun member => !member.isNamed [name]) ++ tail) := by
  induction members generalizing done with
  | nil => exact removeFrom_blanks hTail name done
  | cons member rest ih =>
    obtain ⟨hWhole, hWholes⟩ := List.forall_mem_cons.mp h.whole
    obtain ⟨hSettles, hOthers⟩ := List.forall_mem_cons.mp h.settles
    have hRow : rowText (member :: rest) ++ tail = member.text ++ (rowText rest ++ tail) :=
      List.append_assoc _ _ _
    rw [hRow]
    by_cases hName : member.name? = some name
    · -- the member goes
      have hNamed : member.isNamed [name] = true := by
        rw [Member.isNamed, hName]
        simp
      rw [List.filter_cons_of_neg (by simp [hNamed])]
      cases member with
      | other text => cases hName
      | plain method =>
        obtain rfl : method.heading.name = name := Option.some.inj hName
        rw [show Member.text (.plain method) = method.text from rfl,
          method.removeFrom_text hDone hLine]
        exact ih ⟨hWholes, hOthers⟩ hDone hLine
    · -- the member stays
      have hNamed : member.isNamed [name] = false := by
        rw [Member.isNamed]
        cases hOther : member.name? with
        | none => rfl
        | some other =>
          rw [hOther] at hName
          simpa using fun hEq => hName (congrArg some hEq)
      rw [List.filter_cons_of_pos (by simp [hNamed]),
        (hSettles hName).removeFrom_text hWhole.endsLine hDone hLine, ih ⟨hWholes, hOthers⟩]
      · simp [rowText]
      · rw [List.reverse_append, List.reverse_reverse]
        exact hDone.append hLine hWhole.closed
      · rw [List.reverse_append, List.reverse_reverse]
        exact hLine.append hWhole.endsLine

/-- Of a row of members the removal of a name leaves the others. -/
theorem withoutMethod_row {name tail : Text} {members : List Member} (h : Separates name members)
    (hTail : ∀ c ∈ tail, Text.isBlank c = true) :
    withoutMethod name (rowText members ++ tail) =
      rowText (members.filter fun member => !member.isNamed [name]) ++ tail :=
  removeFrom_row h hTail isClosed_nil Text.endsLine_nil

/-- One name after the other, the plain methods of all names are removed. -/
theorem foldl_withoutMethod_row {names : List Text} {tail : Text} {members : List Member}
    (h : ∀ name ∈ names, Separates name members) (hTail : ∀ c ∈ tail, Text.isBlank c = true) :
    names.foldl (fun body name => withoutMethod name body) (rowText members ++ tail) =
      rowText (members.filter fun member => !member.isNamed names) ++ tail := by
  induction names generalizing members with
  | nil =>
    have hAll : members.filter (fun member => !member.isNamed []) = members :=
      List.filter_eq_self.mpr fun member _ => by cases member <;> rfl
    rw [hAll]
    rfl
  | cons name rest ih =>
    obtain ⟨hName, hNames⟩ := List.forall_mem_cons.mp h
    have hRest : ∀ other ∈ rest,
        Separates other (members.filter fun member => !member.isNamed [name]) := fun other hOther =>
      ⟨fun member hMember => (hNames other hOther).whole member (List.mem_filter.mp hMember).1,
        fun member hMember => (hNames other hOther).settles member (List.mem_filter.mp hMember).1⟩
    have hBoth (member : Member) : (!member.isNamed rest && !member.isNamed [name]) =
        !member.isNamed (name :: rest) := by
      cases member with
      | other text => rfl
      | plain method => simp [Member.isNamed, Member.name?, Bool.and_comm]
    rw [List.foldl_cons, withoutMethod_row hName hTail, ih hRest, List.filter_filter,
      List.filter_congr fun member _ => hBoth member]

end XdrBindings.Code
