import XdrBindings.Proofs.Code.ClassBody
import XdrBindings.Proofs.Text.Trim

/-!
# The outline of a text

Of the code of a text only a few characters matter for the search for classes: braces,
semicolons, and the keywords of declarations.  Their list is the outline of the text, and the
names of the classes are read off it.

## Main results

* `classNames?_eq` — the names of the classes by the outline.
* `marks_append` — the outline of a text that is put together from two.
* `IsApart.before` — a text that can be read apart keeps its marks in front of any text.
* `outline_append_blanks` — blanks behind a text leave its outline as it is.
-/

namespace XdrBindings.Code

/-! ## Marks -/

/-- What matters for the search for classes. -/
inductive Mark
  | opening
  | closing
  | semicolon
  /-- The keyword of a declaration of a class with this name. -/
  | keyword (name : Text)
  deriving DecidableEq, Repr

/-- What a character of code means to the search. -/
def Spot.mark? (spot : Spot) : Option Mark :=
  if spot.char = '{' then some .opening
  else if spot.char = '}' then some .closing
  else if spot.char = ';' then some .semicolon
  else spot.head?.map fun head => .keyword head.1

/-- The marks in a text. -/
def Reader.marks (reader : Reader) (text : Text) : List Mark :=
  (reader.spotsFrom 0 text).filterMap Spot.mark?

/-- The marks in a whole text. -/
def outline (text : Text) : List Mark := Reader.start.marks text

/-- Where the search for classes stands, positions left out. -/
inductive Form
  | outside (depth : Nat) (pending : Option Text)
  | inside (name : Text) (depth : Nat)
  deriving DecidableEq, Repr

namespace Form

/-- What a mark changes. -/
def next (form : Form) (mark : Mark) : Form :=
  match form, mark with
  | outside 0 (some name), .opening => inside name 0
  | outside depth pending, .opening => outside (depth + 1) pending
  | outside depth pending, .closing => outside (depth - 1) pending
  | outside 0 _, .semicolon => outside 0 none
  | outside 0 none, .keyword name => outside 0 (some name)
  | inside name depth, .opening => inside name (depth + 1)
  | inside _ 0, .closing => outside 0 none
  | inside name (depth + 1), .closing => inside name depth
  | form, _ => form

/-- The name of the class that a mark ends. -/
def found (form : Form) (mark : Mark) : Option Text :=
  match form, mark with
  | inside name 0, .closing => some name
  | _, _ => none

/-- Where the search stands behind an outline. -/
def after (form : Form) (marks : List Mark) : Form := marks.foldl next form

/-- The names of the classes that end in an outline. -/
def names : Form → List Mark → List Text
  | _, [] => []
  | form, mark :: rest => (form.found mark).toList ++ (form.next mark).names rest

end Form

/-- Where a search stands, positions left out. -/
def Walk.form : Walk → Form
  | .outside depth pending => .outside depth (pending.map Prod.fst)
  | .inside name _ _ depth => .inside name depth

namespace Walk

/-! ### The search by marks -/

/-- What a mark at a place changes. -/
def nextAt (walk : Walk) (place : Nat) (mark : Mark) : Walk :=
  match walk, mark with
  | outside 0 (some (name, keyword)), .opening => inside name keyword place 0
  | outside depth pending, .opening => outside (depth + 1) pending
  | outside depth pending, .closing => outside (depth - 1) pending
  | outside 0 _, .semicolon => outside 0 none
  | outside 0 none, .keyword name => outside 0 (some (name, place))
  | inside name keyword opening depth, .opening => inside name keyword opening (depth + 1)
  | inside _ _ _ 0, .closing => outside 0 none
  | inside name keyword opening (depth + 1), .closing => inside name keyword opening depth
  | walk, _ => walk

/-- The class that a mark at a place ends. -/
def foundAt (walk : Walk) (place : Nat) (mark : Mark) : Option Site :=
  match walk, mark with
  | inside name keyword opening 0, .closing => some ⟨name, keyword, opening, place⟩
  | _, _ => none

/-- A character of code changes what its mark changes. -/
theorem next_eq (walk : Walk) (spot : Spot) :
    walk.next spot = (spot.mark?.map (walk.nextAt spot.position)).getD walk := by
  by_cases hOpening : spot.char = '{'
  · have hMark : spot.mark? = some .opening := if_pos hOpening
    rw [hMark]
    rcases walk with ⟨_ | depth, _ | head⟩ | ⟨name, keyword, opening, depth⟩
    case inside => simp [next, hOpening, nextAt, nesting]
    all_goals simp [next, stepOutside, hOpening, nextAt]
  by_cases hClosing : spot.char = '}'
  · have hMark : spot.mark? = some .closing := (if_neg hOpening).trans (if_pos hClosing)
    rw [hMark]
    rcases walk with ⟨depth, pending⟩ | ⟨name, keyword, opening, _ | depth⟩
    · simp [next, stepOutside, hClosing, nextAt]
    · simp [next, hClosing, nextAt]
    · simp [next, hClosing, nextAt, nesting]
  have hInside (depth : Nat) : nesting depth spot.char = depth := by
    simp [nesting, hOpening, hClosing]
  by_cases hSemicolon : spot.char = ';'
  · have hMark : spot.mark? = some .semicolon := by simp [Spot.mark?, hSemicolon]
    rw [hMark]
    rcases walk with ⟨_ | depth, pending⟩ | ⟨name, keyword, opening, depth⟩
    · simp [next, stepOutside, hSemicolon, nextAt]
    · simp [next, stepOutside, hSemicolon, nextAt]
    · simp [next, hClosing, hInside, nextAt]
  have hMark : spot.mark? = spot.head?.map fun head => .keyword head.1 := by
    simp [Spot.mark?, hOpening, hClosing, hSemicolon]
  rw [hMark, Option.map_map]
  rcases walk with ⟨_ | depth, _ | head⟩ | ⟨name, keyword, opening, depth⟩
  case inside => cases hHead : spot.head? <;> simp [next, hClosing, hInside, nextAt]
  case outside.zero.none =>
    cases hHead : spot.head? with
    | none => simp [next, stepOutside, hOpening, hClosing, hSemicolon, hHead]
    | some head =>
      have hPlace := (Spot.of_head? hHead).1
      simp [next, stepOutside, hOpening, hClosing, hSemicolon, hHead, nextAt, hPlace]
  all_goals
    cases hHead : spot.head? <;>
      simp [next, stepOutside, hOpening, hClosing, hSemicolon, nextAt]

theorem found_eq (walk : Walk) (spot : Spot) :
    walk.found spot = spot.mark?.bind (walk.foundAt spot.position) := by
  cases walk with
  | outside depth pending => cases spot.mark? <;> rfl
  | inside name keyword opening depth =>
    by_cases hClosing : spot.char = '}'
    · have hMark : spot.mark? = some .closing := by simp [Spot.mark?, hClosing]
      rw [hMark]
      cases depth <;> simp [found, hClosing, foundAt]
    · have hMark : spot.mark? ≠ some .closing := by
        unfold Spot.mark?
        cases spot.head? <;> grind
      have hNone : (Walk.inside name keyword opening depth).found spot = none := by
        simp [found, hClosing]
      rw [hNone]
      cases hSpot : spot.mark? with
      | none => rfl
      | some mark =>
        cases mark with
        | closing => exact absurd hSpot hMark
        | opening => cases depth <;> rfl
        | semicolon => cases depth <;> rfl
        | keyword name => cases depth <;> rfl

theorem form_nextAt (walk : Walk) (place : Nat) (mark : Mark) :
    (walk.nextAt place mark).form = walk.form.next mark := by
  rcases walk with ⟨_ | depth, _ | head⟩ | ⟨name, keyword, opening, _ | depth⟩ <;>
    cases mark <;> rfl

theorem name_foundAt (walk : Walk) (place : Nat) (mark : Mark) :
    (walk.foundAt place mark).map Site.name = walk.form.found mark := by
  rcases walk with ⟨depth, pending⟩ | ⟨name, keyword, opening, _ | depth⟩ <;> cases mark <;> rfl

theorem form_next (walk : Walk) (spot : Spot) :
    (walk.next spot).form = (spot.mark?.map walk.form.next).getD walk.form := by
  rw [next_eq]
  cases spot.mark? with
  | none => rfl
  | some mark => exact walk.form_nextAt spot.position mark

theorem name_found (walk : Walk) (spot : Spot) :
    (walk.found spot).map Site.name = spot.mark?.bind walk.form.found := by
  rw [found_eq]
  cases spot.mark? with
  | none => rfl
  | some mark => exact walk.name_foundAt spot.position mark

theorem form_after (walk : Walk) (spots : List Spot) :
    (walk.after spots).form = walk.form.after (spots.filterMap Spot.mark?) := by
  induction spots generalizing walk with
  | nil => rfl
  | cons spot rest ih =>
    have hNext := walk.form_next spot
    change ((walk.next spot).after rest).form = _
    rw [ih, hNext]
    cases hMark : spot.mark? with
    | none => rw [List.filterMap_cons_none hMark]; rfl
    | some mark => rw [List.filterMap_cons_some hMark]; rfl

theorem names_sites (walk : Walk) (spots : List Spot) :
    (walk.sites spots).map Site.name = walk.form.names (spots.filterMap Spot.mark?) := by
  induction spots generalizing walk with
  | nil => rfl
  | cons spot rest ih =>
    have hNext := walk.form_next spot
    have hFound := congrArg Option.toList (walk.name_found spot)
    rw [Option.toList_map] at hFound
    rw [sites, List.map_append, ih, hNext, hFound]
    cases hMark : spot.mark? with
    | none => rw [List.filterMap_cons_none hMark]; rfl
    | some mark => rw [List.filterMap_cons_some hMark]; rfl

end Walk

/-! ## Classes by the outline -/

/-- The names of the classes that end in a text. -/
def namesOf (text : Text) : List Text := (Form.outside 0 none).names (outline text)

theorem names_sitesOf (text : Text) : (sitesOf text).map Site.name = namesOf text :=
  Walk.names_sites _ _

/-- Where the search stands behind a text. -/
theorem form_walkBehind (text : Text) :
    (walkBehind text).form = (Form.outside 0 none).after (outline text) :=
  Walk.form_after _ _

/-- The names of the classes of a text, if they are found. -/
def classNames? (text : Text) : Option (List Text) :=
  (classesOf text).toOption.map fun classes => classes.map ClassDecl.name

theorem classNames?_of_classesOf {text : Text} {classes : List ClassDecl}
    (h : classesOf text = .ok classes) : classNames? text = some (classes.map ClassDecl.name) := by
  unfold classNames?
  rw [h]
  rfl

/-- Whether no class is open. -/
def Form.isOutside : Form → Bool
  | .outside _ _ => true
  | .inside _ _ => false

theorem classNames?_eq (text : Text) :
    classNames? text = if ((Form.outside 0 none).after (outline text)).isOutside = true then
      some (namesOf text) else none := by
  have hNames : ((sitesOf text).map (Site.decl (LineHead.ofText text))).map ClassDecl.name =
      namesOf text := by
    rw [List.map_map, ← names_sitesOf]
    rfl
  unfold classNames?
  rw [classesOf_eq, ← form_walkBehind]
  cases walkBehind text with
  | outside depth pending => exact congrArg some hNames
  | inside name keyword opening depth => rfl

theorem namesOf_of_classNames? {text : Text} {names : List Text}
    (h : classNames? text = some names) : namesOf text = names := by
  rw [classNames?_eq] at h
  split at h
  · exact Option.some.inj h
  · cases h

/-! ## The marks of a text -/

theorem Spot.mark?_shift (count : Nat) (spot : Spot) : (spot.shift count).mark? = spot.mark? := by
  unfold mark?
  rw [spot.head?_shift, Option.map_map]
  rfl

theorem Reader.filterMap_spotsFrom (reader : Reader) (position : Nat) (text : Text) :
    (reader.spotsFrom position text).filterMap Spot.mark? = reader.marks text := by
  have hSpots := reader.spotsFrom_add 0 position text
  rw [Nat.zero_add] at hSpots
  rw [hSpots, List.filterMap_map]
  exact List.filterMap_congr fun spot _ => spot.mark?_shift position

/-- The mark that a character is if it is code. -/
def markAt (behind : Behind) (c : Char) (rest : Text) : Option Mark :=
  Spot.mark? ⟨0, behind, c, rest⟩

theorem Reader.marks_cons (reader : Reader) (c : Char) (rest : Text) :
    reader.marks (c :: rest) =
      (if (reader.step c rest).2 = .code then markAt reader.behind c rest else none).toList ++
        (reader.step c rest).1.marks rest := by
  have hSpots : reader.spotsFrom 0 (c :: rest) =
      if (reader.step c rest).2 = .code then
        ⟨0, reader.behind, c, rest⟩ :: (reader.step c rest).1.spotsFrom 1 rest
      else (reader.step c rest).1.spotsFrom 1 rest := rfl
  rw [marks, hSpots]
  split
  · rw [List.filterMap_cons, filterMap_spotsFrom, markAt]
    cases Spot.mark? ⟨0, reader.behind, c, rest⟩ <;> rfl
  · exact filterMap_spotsFrom _ _ _

/-- The marks of a text that is put together, where what stands behind changes no mark. -/
theorem Reader.marks_append (reader : Reader) {front back : Text} (hCut : Cut front back)
    (hMarks : ∀ spot ∈ reader.spotsFrom 0 front, (spot.before back).mark? = spot.mark?) :
    reader.marks (front ++ back) = reader.marks front ++ (reader.after front).marks back := by
  unfold marks
  rw [reader.spotsFrom_append 0 hCut, List.filterMap_append, List.filterMap_map,
    Reader.filterMap_spotsFrom, marks]
  congr 1
  exact List.filterMap_congr hMarks

/-! ## Plain characters -/

/-- The characters of a sort that the four marks do not belong to are plain. -/
theorem isPlain_of_sort {p : Char → Bool} (hMarks : ∀ d ∈ ['/', '*', '\'', '"'], p d = false)
    {c : Char} (h : p c = true) : isPlain c = true := by
  have hNe (d : Char) (hd : d ∈ ['/', '*', '\'', '"']) : (c != d) = true := by
    rw [bne_iff_ne]
    rintro rfl
    have hNo := hMarks c hd
    rw [h] at hNo
    cases hNo
  simp only [isPlain, hNe '/' (by decide), hNe '*' (by decide), hNe '\'' (by decide),
    hNe '"' (by decide), Bool.and_self]

theorem isPlain_of_isNameChar {c : Char} (h : isNameChar c = true) : isPlain c = true :=
  isPlain_of_sort (by decide) h

theorem isPlain_of_isBlank {c : Char} (h : Text.isBlank c = true) : isPlain c = true :=
  isPlain_of_sort (by decide) h

/-- In code a plain character is code and leaves the reader there. -/
theorem Reader.step_inCode (behind : Behind) {c : Char} (hc : isPlain c = true) (rest : Text) :
    (Reader.inCode behind).step c rest = (.inCode (behind.step c), .code) := by
  simp only [isPlain, Bool.and_eq_true, bne_iff_ne] at hc
  obtain ⟨⟨⟨hSlash, -⟩, hSingle⟩, hDouble⟩ := hc
  have hQuote : Quote.ofChar? c = none := by
    simp [Quote.ofChar?, Quote.char, hSingle, hDouble]
  have hRead : Mode.code.read behind c rest = (.code, 0, .code) := by
    simp [Mode.read, hSlash, hQuote]
  simp only [Reader.step, Reader.inCode, hRead]

/-! ## Looking ahead -/

theorem nameAhead_append {front back : Text} (hFront : Text.isBlankText front = false)
    (hBack : ∀ c ∈ back.head?, isNameChar c = false) :
    nameAhead (front ++ back) = nameAhead front := by
  have hTake : (Text.trimStart (front ++ back)).takeWhile isNameChar =
      (Text.trimStart front).takeWhile isNameChar := by
    rw [Text.trimStart_append_of_isBlankText hFront, List.takeWhile_append]
    split
    · rename_i hLength
      have hNone : back.takeWhile isNameChar = [] := by
        cases back with
        | nil => rfl
        | cons c rest => rw [List.takeWhile_cons_of_neg (by simp [hBack c rfl])]
      rw [hNone, List.append_nil]
      exact ((List.takeWhile_prefix _).eq_of_length hLength).symm
    · rfl
  simp only [nameAhead, hTake]

theorem nameAhead_blanks_append {blanks : Text} (h : ∀ c ∈ blanks, Text.isBlank c = true)
    (text : Text) : nameAhead (blanks ++ text) = nameAhead text := by
  simp only [nameAhead, Text.trimStart_append h]

/-- The keyword of a declaration with only blanks behind it. -/
def Spot.isOpenKeyword (spot : Spot) : Bool :=
  spot.beginsWord classWord && Text.isBlankText (spot.ahead.drop classWord.length)

section Before

variable {spot : Spot} {back : Text} (hBlank : ∀ c ∈ back.head?, Text.isBlank c = true)

include hBlank

theorem startsWith_before (text : Text) :
    Text.startsWith (text ++ back) classWord = Text.startsWith text classWord := by
  cases back with
  | nil => rw [List.append_nil]
  | cons c rest =>
    apply Text.startsWith_append_cons
    have hLetters : ∀ d ∈ classWord, Text.isBlank d = false := by decide
    intro hMem
    have hNo := hLetters c hMem
    rw [hBlank c rfl] at hNo
    cases hNo

theorem Spot.beginsWord_before :
    (spot.before back).beginsWord classWord = spot.beginsWord classWord := by
  have hAhead : (spot.before back).ahead = spot.ahead ++ back := rfl
  have hStarts := startsWith_before hBlank spot.ahead
  unfold beginsWord
  cases hWord : Text.startsWith spot.ahead classWord with
  | false => rw [hAhead, hStarts, hWord, Bool.and_false, Bool.and_false]; rfl
  | true =>
    have hNext : (spot.ahead.drop classWord.length ++ back).head?.any isNameChar =
        (spot.ahead.drop classWord.length).head?.any isNameChar := by
      cases spot.ahead.drop classWord.length with
      | cons c rest => rfl
      | nil =>
        cases back with
        | nil => rfl
        | cons c rest => simpa using isNameChar_of_isBlank (hBlank c rfl)
    rw [Spot.drop_before hWord, hNext, hAhead, hStarts, hWord]
    rfl

theorem Spot.isOpenKeyword_before :
    (spot.before back).isOpenKeyword = (spot.isOpenKeyword && Text.isBlankText back) := by
  unfold isOpenKeyword
  rw [Spot.beginsWord_before hBlank]
  cases hHere : spot.beginsWord classWord with
  | false => rfl
  | true =>
    rw [Spot.drop_before (Spot.startsWith_of_beginsWord hHere), Text.isBlankText_append]
    rfl

/-- A blank behind a text changes no mark, if no name follows where a keyword is open. -/
theorem Spot.mark?_before (hName : spot.isOpenKeyword = true → nameAhead back = none) :
    (spot.before back).mark? = spot.mark? := by
  have hNames (hHere : spot.beginsWord classWord = true) :
      nameAhead ((spot.before back).ahead.drop classWord.length) =
        nameAhead (spot.ahead.drop classWord.length) := by
    have hWord := Spot.startsWith_of_beginsWord hHere
    rw [Spot.drop_before hWord]
    cases hRest : Text.isBlankText (spot.ahead.drop classWord.length) with
    | false => exact nameAhead_append hRest fun c hc => isNameChar_of_isBlank (hBlank c hc)
    | true =>
      have hBlanks := List.all_eq_true.mp hRest
      have hNone := hName (by rw [isOpenKeyword, hHere, hRest, Bool.and_self])
      have hNil := nameAhead_blanks_append hBlanks []
      rw [List.append_nil] at hNil
      rw [nameAhead_blanks_append hBlanks, hNone, hNil]
      rfl
  unfold mark? head?
  rw [Spot.beginsWord_before hBlank]
  cases hHere : spot.beginsWord classWord with
  | false => rfl
  | true =>
    rw [hNames hHere]
    rfl

end Before

theorem Spot.beginsWord_of_isBlank {spot : Spot} (h : Text.isBlank spot.char = true) :
    spot.beginsWord classWord = false := by
  have hFirst : 'c' ≠ spot.char := by
    intro hEq
    rw [← hEq] at h
    cases h
  simp [beginsWord, ahead, Text.startsWith, classWord, List.isPrefixOf, hFirst]

theorem Spot.mark?_of_isBlank {spot : Spot} (h : Text.isBlank spot.char = true) :
    spot.mark? = none := by
  have hNot : ∀ d ∈ ['{', '}', ';'], Text.isBlank d = false := by decide
  have hNe (d : Char) (hd : d ∈ ['{', '}', ';']) : spot.char ≠ d := by
    rintro rfl
    have hNo := hNot spot.char hd
    rw [h] at hNo
    cases hNo
  simp [Spot.mark?, Spot.head?, Spot.beginsWord_of_isBlank h,
    hNe '{' (by decide), hNe '}' (by decide), hNe ';' (by decide)]

theorem markAt_of_isBlank (behind : Behind) {c : Char} (hc : Text.isBlank c = true)
    (rest : Text) : markAt behind c rest = none :=
  @Spot.mark?_of_isBlank ⟨0, behind, c, rest⟩ hc

/-- Blanks hold no mark. -/
theorem Reader.marks_of_blanks {blanks : Text} (h : ∀ c ∈ blanks, Text.isBlank c = true)
    (reader : Reader) : reader.marks blanks = [] := by
  induction blanks generalizing reader with
  | nil => rfl
  | cons c rest ih =>
    obtain ⟨hc, hRest⟩ := List.forall_mem_cons.mp h
    rw [marks_cons, markAt_of_isBlank _ hc, ih hRest, ite_self]
    rfl

/-! ## Reading apart -/

/-- What stands behind a text is read as if nothing stood in front: the text ends with a line,
in code, outside of all blocks, and no keyword is open. -/
structure IsApart (text : Text) : Prop where
  line : Text.EndsLine text
  ends : (Reader.start.after text).mode = .code
  outside : (Form.outside 0 none).after (outline text) = .outside 0 none
  keywords : ∀ spot ∈ codeSpots text, spot.isOpenKeyword = false

theorem IsApart.after {text : Text} (h : IsApart text) :
    (Reader.start.after text).Alike .start := by
  rcases List.eq_nil_or_concat text with rfl | ⟨front, c, rfl⟩
  · exact Reader.Alike.refl _
  · obtain rfl : c = '\n' := h.line c (by simp)
    have hEnds := h.ends
    rw [List.concat_eq_append] at hEnds ⊢
    obtain ⟨mode, hMode⟩ := Reader.exists_after_newline
      (Reader.owes_of_held_eq_zero rfl front : Reader.start.Owes front)
    obtain rfl : .code = mode := hEnds.symm.trans hMode.mode
    exact hMode

theorem Reader.ahead_suffix {reader : Reader} {position : Nat} {text : Text} {spot : Spot}
    (h : spot ∈ reader.spotsFrom position text) : spot.ahead <:+ text := by
  induction text generalizing reader position with
  | nil => cases h
  | cons c rest ih =>
    unfold spotsFrom at h
    dsimp only at h
    split at h
    · rcases List.mem_cons.mp h with rfl | hRest
      · exact List.suffix_refl _
      · exact (ih hRest).trans (List.suffix_cons c rest)
    · exact (ih h).trans (List.suffix_cons c rest)

/-- In a text that ends with a line each place is the newline itself or stands in front of it. -/
theorem Spot.exists_before_newline {spot : Spot} (hLine : Text.EndsLine spot.ahead) :
    spot.char = '\n' ∨ ∃ inner : Spot, ∀ back, spot.before back = inner.before ('\n' :: back) := by
  obtain ⟨position, behind, c, rest⟩ := spot
  rcases List.eq_nil_or_concat rest with rfl | ⟨front, last, rfl⟩
  · exact .inl (hLine c rfl)
  · obtain rfl : last = '\n' := hLine last (by simp [Spot.ahead, List.getLast?_cons])
    exact .inr ⟨⟨position, behind, c, front⟩, fun back => by simp [Spot.before]⟩

section Line

variable {spot : Spot} (hLine : Text.EndsLine spot.ahead) (hKeyword : spot.isOpenKeyword = false)
  (back : Text)

include hLine hKeyword

/-- In a text that ends with a line the marks are seen without what stands behind, and no keyword
is opened by it. -/
theorem Spot.before_line : (spot.before back).mark? = spot.mark? ∧
    (spot.before back).isOpenKeyword = false := by
  have hSelf : spot.before [] = spot := by simp [Spot.before]
  rcases Spot.exists_before_newline hLine with hChar | ⟨inner, hInner⟩
  · have hBlank : Text.isBlank spot.char = true := by
      rw [hChar]
      rfl
    constructor
    · rw [Spot.mark?_of_isBlank hBlank]
      exact @Spot.mark?_of_isBlank (spot.before back) hBlank
    · rw [isOpenKeyword, @Spot.beginsWord_of_isBlank (spot.before back) hBlank]
      rfl
  · have hNewline (back : Text) : ∀ c ∈ ('\n' :: back).head?, Text.isBlank c = true := by
      rintro _ ⟨⟩
      rfl
    rw [← hSelf, hInner, Spot.isOpenKeyword_before (hNewline [])] at hKeyword
    have hOpen : inner.isOpenKeyword = false := by
      rwa [show Text.isBlankText ['\n'] = true from rfl, Bool.and_true] at hKeyword
    have hNever {more : Text} : inner.isOpenKeyword = true → nameAhead more = none := by
      rw [hOpen]
      nofun
    constructor
    · conv_rhs => rw [← hSelf]
      rw [hInner, hInner, Spot.mark?_before (hNewline back) hNever,
        Spot.mark?_before (hNewline []) hNever]
    · rw [hInner, Spot.isOpenKeyword_before (hNewline back), hOpen, Bool.false_and]

end Line

/-- What stands behind a text that can be read apart changes no mark of it and opens no keyword. -/
theorem IsApart.before {front : Text} (h : IsApart front) {spot : Spot}
    (hSpot : spot ∈ codeSpots front) (back : Text) : (spot.before back).mark? = spot.mark? ∧
      (spot.before back).isOpenKeyword = false := by
  obtain ⟨before, hText⟩ := Reader.ahead_suffix hSpot
  have hLine := h.line
  rw [← hText] at hLine
  exact Spot.before_line hLine.of_append (h.keywords spot hSpot) back

/-- A text that can be read apart and holds no class. -/
structure IsAside (text : Text) : Prop extends IsApart text where
  names : namesOf text = []

instance (text : Text) : Decidable (IsApart text) :=
  decidable_of_iff ((∀ c ∈ text.getLast?, c = '\n') ∧
    (Reader.start.after text).mode = .code ∧
    (Form.outside 0 none).after (outline text) = .outside 0 none ∧
    ∀ spot ∈ codeSpots text, spot.isOpenKeyword = false)
    ⟨fun h => ⟨h.1, h.2.1, h.2.2.1, h.2.2.2⟩, fun h => ⟨h.line, h.ends, h.outside, h.keywords⟩⟩

instance (text : Text) : Decidable (IsAside text) :=
  decidable_of_iff (IsApart text ∧ namesOf text = [])
    ⟨fun h => ⟨h.1, h.2⟩, fun h => ⟨h.toIsApart, h.names⟩⟩

/-! ## Blanks at the ends -/

theorem nameAhead_of_blanks {blanks : Text} (h : ∀ c ∈ blanks, Text.isBlank c = true) :
    nameAhead blanks = none := by
  rw [← List.append_nil blanks, nameAhead_blanks_append h]
  rfl

theorem outline_append_blanks (text : Text) {blanks : Text}
    (h : ∀ c ∈ blanks, Text.isBlank c = true) : outline (text ++ blanks) = outline text := by
  have hHead : ∀ c ∈ blanks.head?, Text.isBlank c = true := fun c hc =>
    h c (List.mem_of_mem_head? hc)
  have hCut : Cut text blanks := .inl fun c hc => isPlain_of_isBlank (hHead c hc)
  rw [outline, Reader.start.marks_append hCut fun spot _ =>
    Spot.mark?_before hHead fun _ => nameAhead_of_blanks h, Reader.marks_of_blanks h,
    List.append_nil]
  rfl

theorem Reader.step_start_of_isBlank {c : Char} (hc : Text.isBlank c = true) (rest : Text) :
    Reader.start.step c rest = (.start, .code) := by
  have hNothing := Behind.step_of_not_isNameChar .nothing (isNameChar_of_isBlank hc)
  have hInCode := Reader.step_inCode .nothing (isPlain_of_isBlank hc) rest
  rw [hNothing] at hInCode
  exact hInCode

theorem Reader.after_start_blanks {blanks : Text} (h : ∀ c ∈ blanks, Text.isBlank c = true) :
    Reader.start.after blanks = .start := by
  induction blanks with
  | nil => rfl
  | cons c rest ih =>
    obtain ⟨hc, hRest⟩ := List.forall_mem_cons.mp h
    rw [Reader.after_cons, Reader.step_start_of_isBlank hc, ih hRest]

end XdrBindings.Code
