import XdrBindings.Proofs.Code.CodeRenamed
import XdrBindings.Proofs.Code.Landmarks

/-!
# The outline of a renamed text

The reader goes the same way through a text and through what renaming makes of it, so both have
the same marks.  A name behind a keyword is renamed if it is a whole word; else only a part of it
may be replaced, or a replaced part may become a name.  Which keywords have whole words behind
them does not change.

## Main results

* `CodeRenamed.alike` — the reader behind a renamed text.
* `CodeRenamed.landmarks_eq` — marks, their lines and whole names in a renamed text.
* `outline_renameWord` — the outline of a renamed text.
-/

namespace XdrBindings.Code

/-! ## Renamed marks -/

/-- A mark with another name. -/
def Mark.map (rename : Text → Text) : Mark → Mark
  | .opening => .opening
  | .closing => .closing
  | .semicolon => .semicolon
  | .keyword name => .keyword (rename name)

/-- Where a search stands under other names. -/
def Form.map (rename : Text → Text) : Form → Form
  | .outside depth pending => .outside depth (pending.map rename)
  | .inside name depth => .inside (rename name) depth

namespace Form

variable (rename : Text → Text)

theorem next_map (form : Form) (mark : Mark) :
    (form.map rename).next (mark.map rename) = (form.next mark).map rename := by
  cases form with
  | outside depth pending => cases depth <;> cases pending <;> cases mark <;> rfl
  | inside name depth => cases depth <;> cases mark <;> rfl

theorem found_map (form : Form) (mark : Mark) :
    (form.map rename).found (mark.map rename) = (form.found mark).map rename := by
  cases form with
  | outside depth pending => rfl
  | inside name depth => cases depth <;> cases mark <;> rfl

theorem after_map (form : Form) (marks : List Mark) :
    (form.map rename).after (marks.map (Mark.map rename)) = (form.after marks).map rename := by
  induction marks generalizing form with
  | nil => rfl
  | cons mark rest ih =>
    change ((form.map rename).next (mark.map rename)).after _ = _
    rw [next_map, ih]
    rfl

theorem names_map (form : Form) (marks : List Mark) :
    (form.map rename).names (marks.map (Mark.map rename)) = (form.names marks).map rename := by
  induction marks generalizing form with
  | nil => rfl
  | cons mark rest ih =>
    rw [List.map_cons, names, names, found_map, next_map, ih, List.map_append, Option.toList_map]

end Form

/-! ## Names that are replaced -/

/-- A word that can be the name of a class, and is neither the keyword nor what makes a string
raw. -/
structure IsPlainName (name : Text) : Prop extends IsPlainWord name where
  begins : ∀ c ∈ name.head?, c.isDigit = false
  ne_class : name ≠ classWord
  ne_raw : name ≠ ['r']

instance (name : Text) : Decidable (IsPlainName name) :=
  decidable_of_iff (name ≠ [] ∧ (∀ c ∈ name, isNameChar c = true) ∧
    (∀ c ∈ name, Text.isWord c = true) ∧ (∀ c ∈ name.head?, c.isDigit = false) ∧
    name ≠ classWord ∧ name ≠ ['r'])
    ⟨fun h => ⟨⟨h.1, h.2.1, h.2.2.1⟩, h.2.2.2.1, h.2.2.2.2.1, h.2.2.2.2.2⟩,
      fun h => ⟨h.ne_nil, h.isName, h.isWord, h.begins, h.ne_class, h.ne_raw⟩⟩

/-- A name with one name replaced. -/
def renamedName (old new name : Text) : Text := if name = old then new else name

/-- Behind a word that does not make a string raw the reader is behind a word. -/
theorem IsPlainWord.behind_after {word : Text} (h : IsPlainWord word) (hRaw : word ≠ ['r'])
    (behind : Behind) : behind.after word = ⟨true, false⟩ := by
  rcases List.eq_nil_or_concat word with rfl | ⟨front, c, rfl⟩
  · exact absurd rfl h.ne_nil
  have hLast : isNameChar c = true := h.isName c (by simp)
  have hNoRaw : (c == 'r' && !(behind.after front).word) = false := by
    rcases List.eq_nil_or_concat front with rfl | ⟨first, d, rfl⟩
    · have hNe : c ≠ 'r' := by
        rintro rfl
        exact hRaw rfl
      simp [hNe]
    · have hWord : isNameChar d = true := h.isName d (by simp)
      rw [List.concat_eq_append, Behind.after_append]
      simp [Behind.step, hWord]
  rw [List.concat_eq_append, Behind.after_append]
  exact congrArg₂ Behind.mk hLast hNoRaw

theorem IsPlainName.behind_after {name : Text} (h : IsPlainName name) (behind : Behind) :
    behind.after name = ⟨true, false⟩ := h.toIsPlainWord.behind_after h.ne_raw behind

/-! ## Keywords with whole words behind them -/

/-- Whether the name at the beginning of a text, blanks before it allowed, is a whole word. -/
def isWholeAhead (text : Text) : Bool :=
  (Text.trimStart text).takeWhile isNameChar == (Text.trimStart text).takeWhile Text.isWord

/-- Whether a whole word stands behind the keyword of a declaration. -/
def Spot.isWhole (spot : Spot) : Bool :=
  !spot.beginsWord classWord || isWholeAhead (spot.ahead.drop classWord.length)

/-- Whether whole words stand behind the keywords in a text. -/
def Reader.areWhole (reader : Reader) (text : Text) : Bool :=
  (reader.spotsFrom 0 text).all Spot.isWhole

/-- Whether the character, if it is code, begins no keyword or one with a whole word behind it. -/
def isWholeAt (behind : Behind) (c : Char) (rest : Text) : Bool :=
  Spot.isWhole ⟨0, behind, c, rest⟩

theorem Reader.all_isWhole_spotsFrom (reader : Reader) (position : Nat) (text : Text) :
    (reader.spotsFrom position text).all Spot.isWhole = reader.areWhole text := by
  have hSpots := reader.spotsFrom_add 0 position text
  rw [Nat.zero_add] at hSpots
  rw [hSpots, List.all_map]
  rfl

theorem Reader.areWhole_cons (reader : Reader) (c : Char) (rest : Text) :
    reader.areWhole (c :: rest) =
      ((!decide ((reader.step c rest).2 = .code) || isWholeAt reader.behind c rest) &&
        (reader.step c rest).1.areWhole rest) := by
  have hSpots : reader.spotsFrom 0 (c :: rest) =
      if (reader.step c rest).2 = .code then
        ⟨0, reader.behind, c, rest⟩ :: (reader.step c rest).1.spotsFrom 1 rest
      else (reader.step c rest).1.spotsFrom 1 rest := rfl
  rw [areWhole, hSpots]
  split
  · rename_i hCode
    rw [List.all_cons, all_isWhole_spotsFrom, decide_eq_true hCode]
    rfl
  · rename_i hCode
    rw [all_isWhole_spotsFrom, decide_eq_false hCode]
    rfl

theorem Reader.Alike.areWhole_eq {reader other : Reader} (h : reader.Alike other) (text : Text) :
    reader.areWhole text = other.areWhole text := by
  unfold Reader.areWhole
  rw [h.spotsFrom_eq]

/-! ## Names of code hold no marks -/

/-- A character of a name that begins no keyword is no mark. -/
theorem landmarks_cons_of_isNameChar {behind : Behind} {c : Char} {rest : Text}
    (hc : isNameChar c = true)
    (hKeyword : Spot.beginsWord ⟨0, behind, c, rest⟩ classWord = false) (line : Nat) :
    (Reader.inCode behind).landmarks line (c :: rest) =
        (Reader.inCode (behind.step c)).landmarks line rest ∧
      (Reader.inCode behind).areWhole (c :: rest) =
        (Reader.inCode (behind.step c)).areWhole rest := by
  have hNe (d : Char) (hd : isNameChar d = false) : c ≠ d := by
    rintro rfl
    rw [hc] at hd
    cases hd
  have hMark : markAt behind c rest = none := by
    simp [markAt, Spot.mark?, Spot.head?, hKeyword, hNe '{' rfl, hNe '}' rfl, hNe ';' rfl]
  have hWhole : isWholeAt behind c rest = true := by
    simp [isWholeAt, Spot.isWhole, hKeyword]
  have hStep := Reader.step_inCode behind (isPlain_of_isNameChar hc) rest
  constructor
  · rw [Reader.landmarks, hStep, if_neg (hNe '\n' rfl)]
    show (if Region.code = .code then markAt behind c rest else none).toList.map _ ++ _ = _
    rw [if_pos rfl, hMark]
    rfl
  · rw [Reader.areWhole_cons, hStep]
    show ((_ || isWholeAt behind c rest) && _) = _
    rw [hWhole, Bool.or_true, Bool.true_and]

/-- Within a name no keyword begins. -/
theorem landmarks_append_of_word {behind : Behind} (hBehind : behind.word = true) {name : Text}
    (hName : ∀ c ∈ name, isNameChar c = true) (line : Nat) (back : Text) :
    (Reader.inCode behind).landmarks line (name ++ back) =
        (Reader.inCode (behind.after name)).landmarks line back ∧
      (Reader.inCode behind).areWhole (name ++ back) =
        (Reader.inCode (behind.after name)).areWhole back := by
  induction name generalizing behind with
  | nil => exact ⟨rfl, rfl⟩
  | cons c rest ih =>
    obtain ⟨hc, hRest⟩ := List.forall_mem_cons.mp hName
    have hKeyword : Spot.beginsWord ⟨0, behind, c, rest ++ back⟩ classWord = false := by
      simp [Spot.beginsWord, hBehind]
    have hWord : (behind.step c).word = true := hc
    obtain ⟨hMarks, hWhole⟩ := landmarks_cons_of_isNameChar hc hKeyword line
    obtain ⟨hMarksRest, hWholeRest⟩ := ih hWord hRest
    rw [List.cons_append, hMarks, hWhole, hMarksRest, hWholeRest]
    exact ⟨rfl, rfl⟩

theorem isWord_of_mem_classWord {c : Char} (h : c ∈ classWord) : Text.isWord c = true := by
  have hAll : ∀ d ∈ classWord, Text.isWord d = true := by decide
  exact hAll c h

/-- A whole name holds no mark. -/
theorem IsPlainName.landmarks_append {name : Text} (h : IsPlainName name) (behind : Behind)
    {back : Text} (hBack : ∀ c ∈ back.head?, Text.isWord c = false) (line : Nat) :
    (Reader.inCode behind).landmarks line (name ++ back) =
        (Reader.inCode ⟨true, false⟩).landmarks line back ∧
      (Reader.inCode behind).areWhole (name ++ back) =
        (Reader.inCode ⟨true, false⟩).areWhole back := by
  have hAfter := h.behind_after behind
  obtain ⟨c, rest, rfl⟩ := List.exists_cons_of_ne_nil h.ne_nil
  obtain ⟨hc, hRest⟩ := List.forall_mem_cons.mp h.isName
  have hKeyword : Spot.beginsWord ⟨0, behind, c, rest ++ back⟩ classWord = false := by
    rw [← Bool.not_eq_true]
    intro hBegins
    simp only [Spot.beginsWord, Bool.and_eq_true, Bool.not_eq_true'] at hBegins
    obtain ⟨⟨-, hStarts⟩, hNext⟩ := hBegins
    obtain ⟨ahead, hAhead⟩ := List.isPrefixOf_iff_prefix.mp hStarts
    have hText : classWord ++ ahead = (c :: rest) ++ back := hAhead
    have hDrop : (Spot.ahead ⟨0, behind, c, rest ++ back⟩).drop classWord.length = ahead := by
      rw [← hAhead, List.drop_left]
    rw [hDrop] at hNext
    rcases List.append_eq_append_iff.mp hText with ⟨more, hName, hMore⟩ | ⟨more, hWord, hMore⟩
    · -- the name is longer than the keyword
      cases more with
      | nil => exact h.ne_class (by simpa using hName)
      | cons d more =>
        have hd := h.isName d (by rw [hName]; simp)
        rw [hMore, List.cons_append, List.head?_cons, Option.any_some, hd] at hNext
        cases hNext
    · -- the name is shorter
      cases more with
      | nil => exact h.ne_class (by simpa using hWord.symm)
      | cons d more =>
        have hd := isWord_of_mem_classWord (c := d) (by rw [hWord]; simp)
        rw [hBack d (by rw [hMore]; rfl)] at hd
        cases hd
  have hWord : (behind.step c).word = true := hc
  obtain ⟨hMarks, hWhole⟩ := landmarks_cons_of_isNameChar hc hKeyword line
  obtain ⟨hMarksRest, hWholeRest⟩ := landmarks_append_of_word hWord hRest line back
  have hAfterRest : (behind.step c).after rest = ⟨true, false⟩ := hAfter
  rw [hAfterRest] at hMarksRest hWholeRest
  rw [List.cons_append, hMarks, hWhole]
  exact ⟨hMarksRest, hWholeRest⟩

/-! ## What is behind a keyword -/

section Ahead

variable {old new : Text} {behind : Behind} {before : Option Char} {text rest other : Text}

/-- Within a word nothing is replaced. -/
theorem CodeRenamed.word_append (hOld : IsPlainWord old) {word : Text}
    (hWord : ∀ c ∈ word, isNameChar c = true ∧ Text.isWord c = true)
    (hBefore : before.any Text.isWord = true)
    (h : CodeRenamed old new (.inCode behind) before (word ++ rest) other) :
    ∃ tail, other = word ++ tail ∧ CodeRenamed old new (.inCode (behind.after word))
      (word.getLast?.or before) rest tail := by
  induction word generalizing behind before other with
  | nil => exact ⟨other, rfl, h⟩
  | cons c word ih =>
    obtain ⟨hc, hMore⟩ := List.forall_mem_cons.mp hWord
    obtain ⟨tail, rfl, hTail⟩ := h.of_cons fun back hText hBoundary _ => by
      rw [hOld.isBoundary_eq_false hBefore] at hBoundary
      cases hBoundary
    rw [Reader.step_inCode behind (isPlain_of_isNameChar hc.1)] at hTail
    have hHere : (some c).any Text.isWord = true := hc.2
    obtain ⟨last, rfl, hLast⟩ := ih hMore hHere hTail
    refine ⟨last, rfl, ?_⟩
    rw [List.getLast?_cons]
    cases hGet : word.getLast? <;> rw [hGet] at hLast <;> exact hLast

/-- A whole name is replaced if it is the old name, and stays if it is another one. -/
theorem CodeRenamed.name_append (hOld : IsPlainWord old) {name : Text} (hSome : name ≠ [])
    (hName : ∀ c ∈ name, isNameChar c = true ∧ Text.isWord c = true)
    (hRest : ∀ c ∈ rest.head?, isNameChar c = false ∧ Text.isWord c = false)
    (hBefore : before.any Text.isWord = false)
    (h : CodeRenamed old new (.inCode behind) before (name ++ rest) other) :
    ∃ tail, other = renamedName old new name ++ tail ∧ tail.head? = rest.head? := by
  have hStays : ∀ c ∈ rest.head?, c ∉ old := fun c hc =>
    hOld.not_mem_of_isNameChar (hRest c hc).1
  have hNoWord : rest.head?.any Text.isWord = false := by
    cases hHead : rest.head? with
    | none => rfl
    | some c => exact (hRest c hHead).2
  have hLastWord := hOld.any_getLast?
  by_cases hEq : name = old
  · subst hEq
    have hBoundaries : Text.isBoundary before name.head? = true ∧
        Text.isBoundary name.getLast? rest.head? = true := by
      obtain ⟨first, more, hCons⟩ := List.exists_cons_of_ne_nil hSome
      have hFirst := hOld.isWord first (by rw [hCons]; exact List.mem_cons_self)
      unfold Text.isBoundary
      rw [hBefore, hLastWord, hNoWord, hCons, List.head?_cons, Option.any_some, hFirst]
      exact ⟨rfl, rfl⟩
    generalize hText : name ++ rest = text at h
    cases h with
    | nil => exact absurd (List.append_eq_nil_iff.mp hText).1 hSome
    | keep hNone _ =>
      exact absurd (Reader.Alike.refl _) (hNone rest hText.symm hBoundaries.1 hBoundaries.2)
    | word _ _ _ hTail =>
      obtain rfl := List.append_cancel_left hText
      exact ⟨_, by rw [renamedName, if_pos rfl], hTail.head?_eq hOld hStays⟩
  · obtain ⟨c, more, rfl⟩ := List.exists_cons_of_ne_nil hSome
    obtain ⟨hc, hMore⟩ := List.forall_mem_cons.mp hName
    obtain ⟨tail, rfl, hTail⟩ := h.of_cons fun back hText _ hAfter => by
      have hParts : (c :: more) ++ rest = old ++ back := hText
      rcases List.append_eq_append_iff.mp hParts with
        ⟨last, hLonger, hLast⟩ | ⟨last, hShorter, hLast⟩
      · cases last with
        | nil => exact hEq (by simpa using hLonger.symm)
        | cons d last =>
          have hd := hOld.isName d (by rw [hLonger]; simp)
          rw [(hRest d (by rw [hLast]; rfl)).1] at hd
          cases hd
      · cases last with
        | nil => exact hEq (by simpa using hShorter)
        | cons d last =>
          have hd := (hName d (by rw [hShorter]; simp)).2
          rw [hLast] at hAfter
          unfold Text.isBoundary at hAfter
          rw [hLastWord, List.cons_append, List.head?_cons, Option.any_some, hd] at hAfter
          cases hAfter
    rw [Reader.step_inCode behind (isPlain_of_isNameChar hc.1)] at hTail
    have hHere : (some c).any Text.isWord = true := hc.2
    obtain ⟨last, rfl, hLast⟩ := hTail.word_append hOld hMore hHere
    exact ⟨last, by rw [renamedName, if_neg hEq]; rfl, hLast.head?_eq hOld hStays⟩

/-- The name at the beginning of a text without blanks there. -/
theorem nameAhead_of_run {name rest : Text} (hName : ∀ c ∈ name, isNameChar c = true)
    (hRest : ∀ c ∈ rest.head?, isNameChar c = false)
    (hTrim : Text.trimStart (name ++ rest) = name ++ rest) :
    nameAhead (name ++ rest) =
      if name.head?.any (!Char.isDigit ·) = true then some name else none := by
  have hRun := Text.takeWhile_append_of_head hName hRest
  unfold nameAhead
  rw [hTrim, hRun]
  cases name with
  | nil => rfl
  | cons c rest => cases hDigit : c.isDigit <;> simp [hDigit]

theorem isWholeAhead_of_run {name rest : Text}
    (hName : ∀ c ∈ name, isNameChar c = true ∧ Text.isWord c = true)
    (hRest : ∀ c ∈ rest.head?, isNameChar c = false ∧ Text.isWord c = false)
    (hTrim : Text.trimStart (name ++ rest) = name ++ rest) :
    isWholeAhead (name ++ rest) = true := by
  unfold isWholeAhead
  rw [hTrim, Text.takeWhile_append_of_head (fun c hc => (hName c hc).1) fun c hc => (hRest c hc).1,
    Text.takeWhile_append_of_head (fun c hc => (hName c hc).2) fun c hc => (hRest c hc).2,
    beq_self_eq_true]

/-- A text that no blank begins, where what is ahead is whole, as the name and what follows. -/
theorem exists_run_of_isWholeAhead {c : Char} (hc : Text.isBlank c = false)
    (hWhole : isWholeAhead (c :: text) = true) :
    ∃ name rest, c :: text = name ++ rest ∧
      (∀ d ∈ name, isNameChar d = true ∧ Text.isWord d = true) ∧
      ∀ d ∈ rest.head?, isNameChar d = false ∧ Text.isWord d = false := by
  unfold isWholeAhead at hWhole
  rw [Text.trimStart_eq_self hc, beq_iff_eq] at hWhole
  refine ⟨(c :: text).takeWhile isNameChar, (c :: text).dropWhile isNameChar,
    List.takeWhile_append_dropWhile.symm, fun d hd => ⟨?_, ?_⟩, fun d hd => ⟨?_, ?_⟩⟩
  · exact List.all_eq_true.mp List.all_takeWhile d hd
  · rw [hWhole] at hd
    exact List.all_eq_true.mp List.all_takeWhile d hd
  · have hNot := List.head?_dropWhile_not isNameChar (c :: text)
    rw [Option.mem_def.mp hd] at hNot
    simpa using hNot
  · have hSame : (c :: text).dropWhile isNameChar = (c :: text).dropWhile Text.isWord := by
      have hSplit := (List.takeWhile_append_dropWhile (p := isNameChar) (l := c :: text)).trans
        (List.takeWhile_append_dropWhile (p := Text.isWord) (l := c :: text)).symm
      rw [hWhole] at hSplit
      exact List.append_cancel_left hSplit
    have hNot := List.head?_dropWhile_not Text.isWord (c :: text)
    rw [← hSame, Option.mem_def.mp hd] at hNot
    simpa using hNot

/-- Renaming a name that can be the name of a class leaves it one, and leaves others alone. -/
theorem renamedName_begins (hOld : IsPlainName old) (hNew : IsPlainName new) {name : Text}
    (hName : ∀ c ∈ name, isNameChar c = true ∧ Text.isWord c = true) :
    (∀ c ∈ renamedName old new name, isNameChar c = true ∧ Text.isWord c = true) ∧
      (renamedName old new name).head?.any (!Char.isDigit ·) =
        name.head?.any (!Char.isDigit ·) := by
  unfold renamedName
  split
  · rename_i hEq
    have hBegins {word : Text} (hWord : IsPlainName word) :
        word.head?.any (!Char.isDigit ·) = true := by
      obtain ⟨c, rest, rfl⟩ := List.exists_cons_of_ne_nil hWord.ne_nil
      have hDigit := hWord.begins c rfl
      simp [hDigit]
    exact ⟨fun c hc => ⟨hNew.isName c hc, hNew.isWord c hc⟩,
      by rw [hEq, hBegins hOld, hBegins hNew]⟩
  · exact ⟨hName, rfl⟩

/-- Where no blank begins a text, none begins it with its first name renamed. -/
theorem trimStart_renamedName (hOld : IsPlainName old) (hNew : IsPlainName new)
    {name last tail : Text} (hName : ∀ c ∈ name, isNameChar c = true ∧ Text.isWord c = true)
    (hTail : tail.head? = last.head?)
    (hBlank : ∀ c ∈ (name ++ last).head?, Text.isBlank c = false) :
    Text.trimStart (renamedName old new name ++ tail) = renamedName old new name ++ tail := by
  have hHead : ∀ c ∈ (renamedName old new name ++ tail).head?, Text.isBlank c = false := by
    intro c hc
    cases hCons : renamedName old new name with
    | cons d more =>
      rw [hCons, List.cons_append, List.head?_cons] at hc
      obtain rfl := Option.some.inj hc
      have hMem : d ∈ renamedName old new name := by
        rw [hCons]
        exact List.mem_cons_self
      have hd := ((renamedName_begins hOld hNew hName).1 d hMem).1
      refine Bool.not_eq_true _ ▸ fun hNo => ?_
      rw [isNameChar_of_isBlank hNo] at hd
      cases hd
    | nil =>
      have hNil : name = [] := by
        unfold renamedName at hCons
        split at hCons
        · exact absurd hCons hNew.ne_nil
        · exact hCons
      rw [hCons, List.nil_append, hTail] at hc
      exact hBlank c (by rw [hNil]; exact hc)
  cases hText : renamedName old new name ++ tail with
  | nil => rfl
  | cons c rest => exact Text.trimStart_eq_self (hHead c (by rw [hText]; rfl))

theorem CodeRenamed.nameAhead_eq (hOld : IsPlainName old) (hNew : IsPlainName new)
    (hFirst : text.head?.any isNameChar = true → before.any Text.isWord = false)
    (hWhole : isWholeAhead text = true)
    (h : CodeRenamed old new (.inCode behind) before text other) :
    nameAhead other = (nameAhead text).map (renamedName old new) ∧
      isWholeAhead other = true := by
  induction text generalizing behind before other with
  | nil =>
    rw [h.eq_nil hOld.ne_nil]
    exact ⟨rfl, rfl⟩
  | cons c rest ih =>
    cases hBlank : Text.isBlank c with
    | true =>
      -- a blank stays and keeps what follows apart
      have hc := isNameChar_of_isBlank hBlank
      obtain ⟨tail, rfl, hTail⟩ :=
        h.of_cons_of_not_mem hOld.toIsPlainWord (hOld.not_mem_of_isNameChar hc)
      have hTrim (more : Text) : Text.trimStart (c :: more) = Text.trimStart more :=
        List.dropWhile_cons_of_pos hBlank
      have hSame (more : Text) : nameAhead (c :: more) = nameAhead more ∧
          isWholeAhead (c :: more) = isWholeAhead more := by
        unfold nameAhead isWholeAhead
        rw [hTrim]
        exact ⟨rfl, rfl⟩
      have hNext : (Reader.inCode behind).step c rest = (.inCode (behind.step c), .code) :=
        Reader.step_inCode behind (isPlain_of_isBlank hBlank) rest
      rw [hNext] at hTail
      rw [(hSame _).1, (hSame _).1, (hSame _).2]
      rw [(hSame _).2] at hWhole
      have hHere : (some c).any Text.isWord = false := isWord_of_isBlank hBlank
      exact ih (fun _ => hHere) hWhole hTail
    | false =>
      obtain ⟨name, last, hText, hName, hLast⟩ := exists_run_of_isWholeAhead hBlank hWhole
      have hTrim : Text.trimStart (c :: rest) = c :: rest := Text.trimStart_eq_self hBlank
      have hHead : (name ++ last).head? = some c := by rw [← hText]; rfl
      rw [hText] at h hTrim hFirst ⊢
      have hOther : ∃ tail, other = renamedName old new name ++ tail ∧ tail.head? = last.head? := by
        cases name with
        | nil =>
          have hNone : renamedName old new [] = [] := if_neg fun hEq => hOld.ne_nil hEq.symm
          refine ⟨other, by rw [hNone]; rfl, h.head?_eq hOld.toIsPlainWord fun d hd => ?_⟩
          exact hOld.not_mem_of_isNameChar (hLast d hd).1
        | cons d name =>
          exact h.name_append hOld.toIsPlainWord (List.cons_ne_nil d name) hName hLast
            (hFirst (hName d List.mem_cons_self).1)
      obtain ⟨tail, rfl, hTail⟩ := hOther
      obtain ⟨hWord, hDigit⟩ := renamedName_begins hOld hNew hName
      have hLastTail : ∀ d ∈ tail.head?, isNameChar d = false ∧ Text.isWord d = false :=
        fun d hd => hLast d (hTail ▸ hd)
      have hTrimOther := trimStart_renamedName hOld hNew hName hTail fun d hd => by
        obtain rfl := Option.some.inj (hHead.symm.trans hd)
        exact hBlank
      rw [nameAhead_of_run (fun d hd => (hWord d hd).1) (fun d hd => (hLastTail d hd).1)
        hTrimOther,
        nameAhead_of_run (fun d hd => (hName d hd).1) (fun d hd => (hLast d hd).1) hTrim, hDigit]
      refine ⟨?_, isWholeAhead_of_run hWord hLastTail hTrimOther⟩
      split <;> rfl

/-! ## Marks -/

/-- Where no keyword begins, the name behind it does not matter. -/
theorem markAt_of_beginsWord_eq_false {c : Char}
    (h : Spot.beginsWord ⟨0, behind, c, rest⟩ classWord = false)
    (hOther : Spot.beginsWord ⟨0, behind, c, other⟩ classWord = false) (rename : Text → Text) :
    markAt behind c other = (markAt behind c rest).map (Mark.map rename) ∧
      isWholeAt behind c other = true := by
  constructor
  · unfold markAt Spot.mark? Spot.head?
    rw [h, hOther]
    dsimp only
    split
    · rfl
    · split
      · rfl
      · split <;> rfl
  · unfold isWholeAt Spot.isWhole
    rw [hOther]
    rfl

/-- What a character that stays is, by what renaming makes of the text behind it. -/
theorem CodeRenamed.markAt_eq (hOld : IsPlainName old) (hNew : IsPlainName new) {c : Char}
    (h : c = 'c' → CodeRenamed old new (.inCode (behind.step c)) (some c) rest other)
    (hWhole : isWholeAt behind c rest = true) :
    markAt behind c other = (markAt behind c rest).map (Mark.map (renamedName old new)) ∧
      isWholeAt behind c other = true := by
  have hLetters : ∀ d ∈ "lass".toList, isNameChar d = true ∧ Text.isWord d = true := by decide
  have hFirst : (some 'c').any Text.isWord = true := by decide
  have hStarts {more : Text} : Text.startsWith (c :: more) classWord = true ↔
      c = 'c' ∧ ∃ ahead, more = "lass".toList ++ ahead := by
    have hWord : classWord = 'c' :: "lass".toList := rfl
    unfold Text.startsWith
    rw [List.isPrefixOf_iff_prefix, hWord, List.cons_prefix_cons]
    exact and_congr eq_comm (exists_congr fun ahead => eq_comm)
  by_cases hKeyword : Text.startsWith (c :: rest) classWord = true
  · obtain ⟨rfl, ahead, rfl⟩ := hStarts.mp hKeyword
    obtain ⟨tail, rfl, hTail⟩ := (h rfl).word_append hOld.toIsPlainWord hLetters hFirst
    have hNext := hTail.any_isNameChar_eq hOld.toIsPlainWord hNew.toIsPlainWord
    have hBegins (more : Text) : Spot.beginsWord ⟨0, behind, 'c', "lass".toList ++ more⟩ classWord =
        (!behind.word && !more.head?.any isNameChar) := by
      have hDrop : ('c' :: ("lass".toList ++ more)).drop classWord.length = more := rfl
      unfold Spot.beginsWord Spot.ahead
      rw [hStarts.mpr ⟨rfl, more, rfl⟩, hDrop, Bool.and_true]
    cases hHere : Spot.beginsWord ⟨0, behind, 'c', "lass".toList ++ ahead⟩ classWord with
    | false =>
      refine markAt_of_beginsWord_eq_false hHere ?_ _
      rw [hBegins, hNext, ← hBegins]
      exact hHere
    | true =>
      have hOther : Spot.beginsWord ⟨0, behind, 'c', "lass".toList ++ tail⟩ classWord = true := by
        rw [hBegins, hNext, ← hBegins]
        exact hHere
      have hApart : ahead.head?.any isNameChar = false := by
        rw [hBegins, Bool.and_eq_true, Bool.not_eq_true'] at hHere
        simpa using hHere.2
      have hAhead : isWholeAhead ahead = true := by
        unfold isWholeAt Spot.isWhole at hWhole
        rw [hHere] at hWhole
        exact hWhole
      obtain ⟨hName, hWholeTail⟩ := hTail.nameAhead_eq hOld hNew
        (fun hNo => by rw [hApart] at hNo; cases hNo) hAhead
      have hMark {more : Text}
          (hMore : Spot.beginsWord ⟨0, behind, 'c', "lass".toList ++ more⟩ classWord = true) :
          markAt behind 'c' ("lass".toList ++ more) = (nameAhead more).map Mark.keyword := by
        have hDrop : (Spot.ahead ⟨0, behind, 'c', "lass".toList ++ more⟩).drop classWord.length =
            more := rfl
        unfold markAt Spot.mark? Spot.head?
        rw [hMore, hDrop]
        cases nameAhead more <;> rfl
      constructor
      · rw [hMark hHere, hMark hOther, hName, Option.map_map, Option.map_map]
        rfl
      · unfold isWholeAt Spot.isWhole
        rw [hOther]
        exact hWholeTail
  · have hNone {more : Text} (hMore : Text.startsWith (c :: more) classWord ≠ true) :
        Spot.beginsWord ⟨0, behind, c, more⟩ classWord = false := by
      unfold Spot.beginsWord Spot.ahead
      rw [Bool.eq_false_iff.mpr hMore, Bool.and_false, Bool.false_and]
    refine markAt_of_beginsWord_eq_false (hNone hKeyword) (hNone fun hOther => hKeyword ?_) _
    obtain ⟨rfl, tail, rfl⟩ := hStarts.mp hOther
    obtain ⟨ahead, rfl, -⟩ := (h rfl).exists_of_append hOld.toIsPlainWord
      (fun d hd => (hLetters d hd).2) hFirst
    exact hStarts.mpr ⟨rfl, ahead, rfl⟩

end Ahead

/-! ## Whole texts -/

/-- Renaming leaves the reader where it was. -/
theorem CodeRenamed.alike {old new : Text} (hOld : IsPlainName old) (hNew : IsPlainName new)
    {reader : Reader} {before : Option Char} {text other : Text}
    (h : CodeRenamed old new reader before text other) :
    (reader.after other).Alike (reader.after text) := by
  induction h with
  | nil => exact Reader.Alike.refl _
  | keep _ hRest ih =>
    rename_i reader before c rest other _
    have hStep := hRest.step_eq hOld.toIsPlainWord hNew.toIsPlainWord reader c
    rw [Reader.after_cons, Reader.after_cons, hStep]
    exact ih
  | word hCode hBefore hAfter hRest ih =>
    rename_i reader before rest other
    have hEnds {name : Text} (hName : IsPlainName name) (back : Text) :
        (reader.after (name ++ back)).Alike ((Reader.inCode ⟨true, false⟩).after back) := by
      have hCut : Cut name back := .inr fun c hc =>
        hName.toIsPlainWord.isPlain (List.mem_of_getLast? hc)
      have hAll := hCode.after (name ++ back)
      rwa [Reader.after_append _ hCut, Reader.after_append _ hCut,
        Reader.after_inCode _ fun c hc => hName.toIsPlainWord.isPlain hc, hName.behind_after,
        ← Reader.after_append _ hCut] at hAll
    rw [hOld.behind_after] at ih
    exact ((hEnds hNew other).trans ih).trans (hEnds hOld rest).symm

/-- Renaming renames the marks of a text, keeps their lines, and keeps the names behind keywords
whole. -/
theorem CodeRenamed.landmarks_eq {old new : Text} (hOld : IsPlainName old)
    (hNew : IsPlainName new) {reader : Reader} {before : Option Char} {text other : Text}
    (hHolds : reader.HoldsNoCode) (hWhole : reader.areWhole text = true) (line : Nat)
    (h : CodeRenamed old new reader before text other) :
    reader.landmarks line other =
        (reader.landmarks line text).map (Prod.map (Mark.map (renamedName old new)) id) ∧
      reader.areWhole other = true := by
  induction h generalizing line with
  | nil => exact ⟨rfl, rfl⟩
  | keep _ hRest ih =>
    rename_i reader before c rest other _
    rw [Reader.areWhole_cons, Bool.and_eq_true] at hWhole
    have hStep := hRest.step_eq hOld.toIsPlainWord hNew.toIsPlainWord reader c
    obtain ⟨hMarks, hOther⟩ := ih (Reader.holdsNoCode_step hHolds c rest) hWhole.2
      (if c = '\n' then line + 1 else line)
    rw [Reader.landmarks, Reader.landmarks, Reader.areWhole_cons, hStep, hMarks, hOther]
    by_cases hCode : (reader.step c rest).2 = .code
    · have hWholeHere : isWholeAt reader.behind c rest = true := by
        have hHere := hWhole.1
        rw [decide_eq_true hCode] at hHere
        exact hHere
      have hTail (hc : c = 'c') :
          CodeRenamed old new (.inCode (reader.behind.step c)) (some c) rest other := by
        rw [← (Reader.step_of_code hHolds hCode (by rw [hc]; decide)).2]
        exact hRest
      have hMark := CodeRenamed.markAt_eq hOld hNew hTail hWholeHere
      rw [if_pos hCode, if_pos hCode, hMark.1, hMark.2, Bool.or_true, List.map_append,
        Option.toList_map, List.map_map, List.map_map]
      exact ⟨rfl, rfl⟩
    · rw [if_neg hCode, if_neg hCode, decide_eq_false hCode]
      exact ⟨rfl, rfl⟩
  | word hCode hBefore hAfter hRest ih =>
    rename_i reader before rest other
    have hBack := hOld.isWord_eq_false_of_isBoundary hAfter
    have hHead := hRest.head?_eq hOld.toIsPlainWord fun c hc =>
      hOld.not_mem_of_isWord (hBack c hc)
    have hBackOther : ∀ c ∈ other.head?, Text.isWord c = false := fun c hc =>
      hBack c (hHead ▸ hc)
    rw [hOld.behind_after] at ih
    obtain ⟨hMarksOld, hWholeOld⟩ := hOld.landmarks_append reader.behind hBack line
    obtain ⟨hMarksNew, hWholeNew⟩ := hNew.landmarks_append reader.behind hBackOther line
    rw [hCode.areWhole_eq, hWholeOld] at hWhole
    obtain ⟨hMarks, hOther⟩ := ih (Reader.holdsNoCode_inCode _) hWhole line
    refine ⟨?_, ?_⟩
    · rw [hCode.landmarks_eq, hCode.landmarks_eq, hMarksNew, hMarksOld, hMarks]
    · rw [hCode.areWhole_eq, hWholeNew, hOther]

/-- Renaming a name in a text renames its marks and keeps their lines. -/
theorem landmarks_renameWord {old new : Text} (hOld : IsPlainName old) (hNew : IsPlainName new)
    {text : Text} (hWhole : Reader.start.areWhole text = true) (line : Nat) :
    Reader.start.landmarks line (renameWord old new text) =
        (Reader.start.landmarks line text).map (Prod.map (Mark.map (renamedName old new)) id) ∧
      Reader.start.areWhole (renameWord old new text) = true :=
  (codeRenamed_renameWord hOld.toIsPlainWord text).landmarks_eq hOld hNew
    (Reader.holdsNoCode_inCode _) hWhole line

/-- Without the lines: renaming a name in a text renames its marks. -/
theorem outline_renameWord {old new : Text} (hOld : IsPlainName old) (hNew : IsPlainName new)
    {text : Text} (hWhole : Reader.start.areWhole text = true) :
    outline (renameWord old new text) = (outline text).map (Mark.map (renamedName old new)) ∧
      Reader.start.areWhole (renameWord old new text) = true := by
  obtain ⟨hMarks, hStays⟩ := landmarks_renameWord hOld hNew hWhole 1
  refine ⟨?_, hStays⟩
  rw [outline, outline, ← Reader.map_fst_landmarks _ 1, ← Reader.map_fst_landmarks _ 1, hMarks,
    List.map_map, List.map_map]
  rfl

end XdrBindings.Code
