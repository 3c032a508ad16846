import XdrBindings.Code.Braces
import XdrBindings.Proofs.Code.Reading
import XdrBindings.Proofs.Text.Lines
import XdrBindings.Text.Blank

/-!
# Closed texts

A text is closed if it begins and ends in code and closes exactly the blocks that it
opens, never more than are open.  A closed text can stand anywhere in code without a
change to what surrounds it.

White space decides little: outside of strings and comments nothing, and in them only a
newline counts.  So a text stays closed when its lines are indented anew, and when the
blanks at its end become newlines.

## Main results

* `IsClosed.append` — closed texts in a row are closed.
* `Shifted.after`, `Shifted.openBlocks` — indenting a line anew changes nothing.
* `Reader.after_newlines` — newlines do for other blanks at the end of a text.
-/

namespace XdrBindings.Code

/-! ## Open blocks -/

/-- The number of blocks open behind characters of code, `depth` being open before them;
nothing if a brace closes more than is open. -/
def openBlocks : (depth : Nat) → Text → Option Nat
  | depth, [] => some depth
  | depth, c :: rest =>
    if c = '}' ∧ depth = 0 then none else openBlocks (nesting depth c) rest

theorem openBlocks_append (depth : Nat) (front back : Text) :
    openBlocks depth (front ++ back) =
      (openBlocks depth front).bind fun depth => openBlocks depth back := by
  induction front generalizing depth with
  | nil => rfl
  | cons c rest ih =>
    simp only [List.cons_append, openBlocks, ih]
    split <;> rfl

/-- Whether a character is neither of the braces. -/
def isNoBrace (c : Char) : Bool := c != '{' && c != '}'

theorem openBlocks_of_isNoBrace {depth : Nat} {text : Text}
    (h : ∀ c ∈ text, isNoBrace c = true) : openBlocks depth text = some depth := by
  induction text with
  | nil => rfl
  | cons c rest ih =>
    obtain ⟨hOpen, hClose⟩ : c ≠ '{' ∧ c ≠ '}' := by
      simpa [isNoBrace] using h c List.mem_cons_self
    rw [openBlocks, if_neg fun hc => hClose hc.1]
    simpa [nesting, hOpen, hClose] using ih fun d hd => h d (List.mem_cons_of_mem _ hd)

namespace Reader

/-- The characters of a text that are code. -/
def codeChars (reader : Reader) : Text → Text
  | [] => []
  | c :: rest =>
    if (reader.step c rest).2 = .code then c :: (reader.step c rest).1.codeChars rest
    else (reader.step c rest).1.codeChars rest

theorem map_codeFrom (reader : Reader) (position : Nat) (text : Text) :
    (reader.codeFrom position text).map Prod.snd = reader.codeChars text := by
  induction text generalizing reader position with
  | nil => rfl
  | cons c rest ih =>
    simp only [codeFrom, codeChars]
    split
    · rw [List.map_cons, ih]
    · exact ih _ _

theorem codeChars_append (reader : Reader) {front back : Text} (hCut : Cut front back) :
    reader.codeChars (front ++ back) =
      reader.codeChars front ++ (reader.after front).codeChars back := by
  induction front generalizing reader with
  | nil => rfl
  | cons c rest ih =>
    simp only [List.cons_append, codeChars, step_append _ hCut, ih _ hCut.of_cons, after_cons]
    split <;> rfl

theorem mem_of_mem_codeChars {reader : Reader} {text : Text} {c : Char}
    (h : c ∈ reader.codeChars text) : c ∈ text := by
  induction text generalizing reader with
  | nil => cases h
  | cons d rest ih =>
    rw [codeChars] at h
    split at h
    · rcases List.mem_cons.mp h with rfl | hRest
      · exact List.mem_cons_self
      · exact List.mem_cons_of_mem _ (ih hRest)
    · exact List.mem_cons_of_mem _ (ih h)

/-! ## Readers that go on alike -/

/-- Two readers that differ at most in what they last held something as. -/
structure Alike (reader other : Reader) : Prop where
  behind : reader.behind = other.behind
  mode : reader.mode = other.mode
  held : reader.held = other.held
  heldAs : reader.held ≠ 0 → reader.heldAs = other.heldAs

theorem Alike.refl (reader : Reader) : Alike reader reader := ⟨rfl, rfl, rfl, fun _ => rfl⟩

theorem Alike.symm {reader other : Reader} (h : Alike reader other) : Alike other reader :=
  ⟨h.behind.symm, h.mode.symm, h.held.symm, fun hHeld => (h.heldAs (h.held ▸ hHeld)).symm⟩

theorem Alike.trans {reader other third : Reader} (h : Alike reader other)
    (hOther : Alike other third) : Alike reader third :=
  ⟨h.behind.trans hOther.behind, h.mode.trans hOther.mode, h.held.trans hOther.held,
    fun hHeld => (h.heldAs hHeld).trans (hOther.heldAs (h.held ▸ hHeld))⟩

theorem Alike.step_eq {reader other : Reader} (h : Alike reader other) (c : Char)
    (rest : Text) : reader.step c rest = other.step c rest := by
  obtain ⟨behind, mode, held, heldAs⟩ := reader
  obtain ⟨otherBehind, otherMode, otherHeld, otherHeldAs⟩ := other
  obtain ⟨rfl, rfl, rfl, hHeldAs⟩ := h
  cases held with
  | zero => rfl
  | succ held =>
    obtain rfl : heldAs = otherHeldAs := hHeldAs (Nat.succ_ne_zero held)
    rfl

theorem Alike.after {reader other : Reader} (h : Alike reader other) (text : Text) :
    Alike (reader.after text) (other.after text) := by
  cases text with
  | nil => exact h
  | cons c rest =>
    rw [after_cons, after_cons, h.step_eq]
    exact Alike.refl _

theorem Alike.regionsFrom_eq {reader other : Reader} (h : Alike reader other) (text : Text) :
    reader.regionsFrom text = other.regionsFrom text := by
  cases text with
  | nil => rfl
  | cons c rest => simp only [regionsFrom, h.step_eq]

theorem Alike.codeChars_eq {reader other : Reader} (h : Alike reader other) (text : Text) :
    reader.codeChars text = other.codeChars text := by
  cases text with
  | nil => rfl
  | cons c rest => simp only [codeChars, h.step_eq]

theorem Alike.spotsFrom_eq {reader other : Reader} (h : Alike reader other) (position : Nat)
    (text : Text) : reader.spotsFrom position text = other.spotsFrom position text := by
  cases text with
  | nil => rfl
  | cons c rest => simp only [spotsFrom, h.step_eq, h.behind]

/-! ## What is owed at the end of a text -/

/-- A reader holds no more than what is ahead, or one character more in a string: a
backslash at the end of a text. -/
def Owes (reader : Reader) (ahead : Text) : Prop :=
  reader.held ≤ ahead.length ∨
    reader.held = ahead.length + 1 ∧ ∃ quote triple raw, reader.mode = .string quote triple raw

theorem owes_of_held_eq_zero {reader : Reader} (h : reader.held = 0) (ahead : Text) :
    reader.Owes ahead := .inl (by omega)

theorem length_of_isTwiceAt {quote : Quote} {text : Text} (h : quote.isTwiceAt text = true) :
    2 ≤ text.length := by
  simpa using (List.isPrefixOf_iff_prefix.mp h).length_le

theorem owes_read {behind : Behind} {mode next : Mode} {c : Char} {rest : Text} {held : Nat}
    {region : Region} (h : mode.read behind c rest = (next, held, region)) :
    (Reader.mk (behind.step c) next held region).Owes rest := by
  have hHead {d : Char} (hd : rest.head? = some d) : 1 ≤ rest.length := by
    cases rest with
    | nil => cases hd
    | cons _ _ => simp
  have hTwice (quote : Quote) : quote.isTwiceAt rest = true → 2 ≤ rest.length :=
    length_of_isTwiceAt
  unfold Owes
  cases mode <;> simp only [Mode.read] at h <;> grind

theorem owes_step {reader : Reader} {c : Char} {rest : Text} (h : reader.Owes (c :: rest)) :
    (reader.step c rest).1.Owes rest := by
  obtain ⟨behind, mode, held, heldAs⟩ := reader
  cases held with
  | zero => exact owes_read rfl
  | succ held =>
    rcases h with hHeld | ⟨hHeld, hMode⟩
    · exact .inl (by simpa [step] using hHeld)
    · exact .inr ⟨by simpa [step] using hHeld, hMode⟩

theorem owes_after {reader : Reader} {text : Text} (h : reader.Owes text) :
    (reader.after text).Owes [] := by
  induction text generalizing reader with
  | nil => exact h
  | cons c rest ih => exact ih (owes_step h)

/-- A text that ends in code is read without anything left to hold. -/
theorem held_eq_zero_of_mode_code {reader : Reader} {text : Text} (h : reader.Owes text)
    (hMode : (reader.after text).mode = .code) : (reader.after text).held = 0 := by
  rcases owes_after h with hHeld | ⟨-, quote, triple, raw, hString⟩
  · exact Nat.le_zero.mp hHeld
  · rw [hMode] at hString
    cases hString

end Reader

/-! ## White space -/

/-- Whether a character leaves every mode as it is and belongs to no word. -/
def isInert (c : Char) : Bool :=
  isPlain c && c != '\\' && c != '\n' && isNoBrace c && !isNameChar c

theorem isNameChar_of_isBlank {c : Char} (h : Text.isBlank c = true) : isNameChar c = false := by
  cases hName : isNameChar c with
  | false => rfl
  | true =>
    exfalso
    have hVal : c.val.toNat = c.toNat := rfl
    unfold isNameChar Char.isAlphanum Char.isAlpha Char.isUpper Char.isLower Char.isDigit at hName
    simp only [Bool.or_eq_true, Bool.and_eq_true, decide_eq_true_eq, beq_iff_eq,
      ge_iff_le, UInt32.le_iff_toNat_le] at hName
    simp only [Text.isBlank, Bool.or_eq_true, Bool.and_eq_true, decide_eq_true_eq,
      beq_iff_eq] at h
    rcases hName with (hName | rfl) | rfl
    · simp at hName
      omega
    · simp at h
    · simp at h

theorem isInert_of_isBlank {c : Char} (h : Text.isBlank c = true) (hLine : c ≠ '\n') :
    isInert c = true := by
  have hNe {d : Char} (hd : Text.isBlank d = false) : c ≠ d := by
    rintro rfl
    rw [h] at hd
    cases hd
  simp [isInert, isPlain, isNoBrace, isNameChar_of_isBlank h, hLine, hNe (d := '/') rfl,
    hNe (d := '*') rfl, hNe (d := '\'') rfl, hNe (d := '"') rfl, hNe (d := '\\') rfl,
    hNe (d := '{') rfl, hNe (d := '}') rfl]

theorem Mode.read_of_isInert (behind : Behind) {c : Char} (hc : isInert c = true)
    (rest : Text) (mode : Mode) : mode.read behind c rest = (mode, 0, mode.region) := by
  simp only [isInert, isPlain, Bool.and_eq_true, bne_iff_ne, ne_eq] at hc
  obtain ⟨⟨⟨⟨⟨⟨⟨hSlash, hStar⟩, hSingle⟩, hDouble⟩, hEscape⟩, hLine⟩, -⟩, -⟩ := hc
  have hQuote : Quote.ofChar? c = none := by simp [Quote.ofChar?, Quote.char, hSingle, hDouble]
  have hNe (quote : Quote) : c ≠ quote.char := by cases quote <;> assumption
  cases mode with
  | code => simp only [Mode.read, hSlash, hQuote, false_and, if_false, Mode.region]
  | lineComment => simp only [Mode.read, hLine, if_false, Mode.region]
  | blockComment depth => simp only [Mode.read, hSlash, hStar, false_and, if_false, Mode.region]
  | string quote triple raw =>
    simp only [Mode.read, hEscape, hNe quote, hLine, false_and, if_false, Mode.region]

theorem Behind.step_of_not_isNameChar (behind : Behind) {c : Char} (hc : isNameChar c = false) :
    behind.step c = .nothing := by
  have hNe : c ≠ 'r' := by
    rintro rfl
    cases hc
  simp [Behind.step, Behind.nothing, hc, hNe]

namespace Reader

theorem after_inert {text : Text} (h : ∀ c ∈ text, isInert c = true) (mode : Mode) :
    Alike ((inMode .nothing mode).after text) (inMode .nothing mode) := by
  induction text with
  | nil => exact Alike.refl _
  | cons c rest ih =>
    have hc := h c List.mem_cons_self
    have hName : isNameChar c = false := by
      simp only [isInert, Bool.and_eq_true, Bool.not_eq_true'] at hc
      exact hc.2
    have hStep : Alike ((inMode .nothing mode).step c rest).1 (inMode .nothing mode) := by
      simp only [step, inMode, Mode.read_of_isInert _ hc]
      exact ⟨Behind.step_of_not_isNameChar _ hName, rfl, rfl, fun hHeld => absurd rfl hHeld⟩
    exact (hStep.after rest).trans (ih fun d hd => h d (List.mem_cons_of_mem _ hd))

theorem openBlocks_inert {text : Text} (h : ∀ c ∈ text, isInert c = true) (reader : Reader)
    (depth : Nat) : openBlocks depth (reader.codeChars text) = some depth := by
  refine openBlocks_of_isNoBrace fun c hc => ?_
  have hInert := h c (mem_of_mem_codeChars hc)
  simp only [isInert, Bool.and_eq_true] at hInert
  exact hInert.1.2

theorem cut_of_inert {front : Text} (h : ∀ c ∈ front, isInert c = true) (back : Text) :
    Cut front back := by
  refine .inr fun c hc => ?_
  have hInert := h c (List.mem_of_getLast? hc)
  simp only [isInert, Bool.and_eq_true] at hInert
  exact hInert.1.1.1.1

/-! ## Lines -/

/-- Behind a newline nothing is held and no word has begun. -/
theorem exists_after_newline {reader : Reader} {text : Text} (h : reader.Owes text) :
    ∃ mode, Alike (reader.after (text ++ ['\n'])) (inMode .nothing mode) := by
  rw [after_append _ (cut_of_head rfl), after_cons, after_nil]
  generalize hEnd : reader.after text = last
  have hOwes : last.Owes [] := hEnd ▸ owes_after h
  obtain ⟨behind, mode, held, heldAs⟩ := last
  have hNothing : behind.step '\n' = .nothing := Behind.step_of_not_isNameChar _ rfl
  have hHeld : held ≤ 1 := by
    rcases hOwes with hOwes | ⟨hOwes, -⟩
    · exact Nat.le_trans hOwes (by decide)
    · exact Nat.le_of_eq hOwes
  match held, hHeld with
  | 1, _ => exact ⟨mode, hNothing, rfl, rfl, fun hHeld => absurd rfl hHeld⟩
  | 0, _ =>
    have hZero : (Reader.step ⟨behind, mode, 0, heldAs⟩ '\n' []).1.held = 0 := by
      cases mode with
      | code => rfl
      | lineComment => rfl
      | blockComment depth => rfl
      | string quote triple raw =>
        cases quote <;> cases triple <;> simp [step, Mode.read, Quote.char]
    exact ⟨_, hNothing, rfl, hZero, fun hHeld => absurd hZero hHeld⟩

/-- Two lines that differ in their indentation at most. -/
def Shifted (line other : Text) : Prop :=
  ∃ indent otherIndent rest, line = indent ++ (rest ++ ['\n']) ∧
    other = otherIndent ++ (rest ++ ['\n']) ∧ (∀ c ∈ indent, isInert c = true) ∧
    ∀ c ∈ otherIndent, isInert c = true

theorem Shifted.symm {line other : Text} (h : Shifted line other) : Shifted other line := by
  obtain ⟨indent, otherIndent, rest, hLine, hOther, hIndent, hOtherIndent⟩ := h
  exact ⟨otherIndent, indent, rest, hOther, hLine, hOtherIndent, hIndent⟩

theorem Shifted.cut {line other : Text} (h : Shifted line other) (back : Text) :
    Cut line back := by
  obtain ⟨indent, otherIndent, rest, rfl, -, -, -⟩ := h
  rw [← List.append_assoc]
  exact cut_of_last rfl

theorem Shifted.exists_after {line other : Text} (h : Shifted line other) (mode : Mode) :
    ∃ next, Alike ((inMode .nothing mode).after line) (inMode .nothing next) := by
  obtain ⟨indent, otherIndent, rest, rfl, -, -, -⟩ := h
  rw [← List.append_assoc]
  exact exists_after_newline (owes_of_held_eq_zero rfl _)

theorem Shifted.after {line other : Text} (h : Shifted line other) (mode : Mode) :
    Alike ((inMode .nothing mode).after line) ((inMode .nothing mode).after other) := by
  obtain ⟨indent, otherIndent, rest, rfl, rfl, hIndent, hOther⟩ := h
  rw [after_append _ (cut_of_inert hIndent _), after_append _ (cut_of_inert hOther _)]
  exact ((after_inert hIndent mode).after _).trans ((after_inert hOther mode).after _).symm

theorem Shifted.openBlocks {line other : Text} (h : Shifted line other) (mode : Mode)
    (depth : Nat) :
    openBlocks depth ((inMode .nothing mode).codeChars line) =
      openBlocks depth ((inMode .nothing mode).codeChars other) := by
  obtain ⟨indent, otherIndent, rest, rfl, rfl, hIndent, hOther⟩ := h
  rw [codeChars_append _ (cut_of_inert hIndent _), codeChars_append _ (cut_of_inert hOther _),
    openBlocks_append, openBlocks_append, openBlocks_inert hIndent, openBlocks_inert hOther,
    (after_inert hIndent mode).codeChars_eq, (after_inert hOther mode).codeChars_eq]

/-- Lines written in two ways that differ in their indentation lead to the same reader and
open the same blocks. -/
theorem after_shiftedLines {α : Type} {lines : List α} {write other : α → Text}
    (h : ∀ line ∈ lines, Shifted (write line) (other line)) (mode : Mode) :
    Alike ((inMode .nothing mode).after (lines.flatMap write))
        ((inMode .nothing mode).after (lines.flatMap other)) ∧
      ∀ depth, Code.openBlocks depth ((inMode .nothing mode).codeChars (lines.flatMap write)) =
        Code.openBlocks depth ((inMode .nothing mode).codeChars (lines.flatMap other)) := by
  induction lines generalizing mode with
  | nil => exact ⟨Alike.refl _, fun _ => rfl⟩
  | cons line rest ih =>
    have hLine := h line List.mem_cons_self
    obtain ⟨next, hNext⟩ := hLine.exists_after mode
    have hOther : Alike ((inMode .nothing mode).after (other line)) (inMode .nothing next) :=
      (hLine.after mode).symm.trans hNext
    obtain ⟨ihAfter, ihBlocks⟩ :=
      ih (fun second hMem => h second (List.mem_cons_of_mem _ hMem)) next
    simp only [List.flatMap_cons]
    constructor
    · rw [after_append _ (hLine.cut _), after_append _ (hLine.symm.cut _)]
      exact (hNext.after _).trans (ihAfter.trans (hOther.after _).symm)
    · intro depth
      rw [codeChars_append _ (hLine.cut _), codeChars_append _ (hLine.symm.cut _),
        openBlocks_append, openBlocks_append, hLine.openBlocks, hNext.codeChars_eq,
        hOther.codeChars_eq]
      cases Code.openBlocks depth ((inMode .nothing mode).codeChars (other line)) with
      | none => rfl
      | some depth => exact ihBlocks depth

/-! ## Blanks at the end of a text -/

theorem mode_of_after_blanks {reader : Reader} {text : Text}
    (h : ∀ c ∈ text, Text.isBlank c = true) (hMode : (reader.after text).mode = .code) :
    reader.mode = .code ∨ reader.mode = .lineComment ∨
      ∃ quote raw, reader.mode = .string quote false raw := by
  induction text generalizing reader with
  | nil => exact .inl hMode
  | cons c rest ih =>
    have hNext := ih (fun d hd => h d (List.mem_cons_of_mem _ hd)) hMode
    have hNe {d : Char} (hd : Text.isBlank d = false) : c ≠ d := by
      rintro rfl
      rw [h c List.mem_cons_self] at hd
      cases hd
    obtain ⟨behind, mode, held, heldAs⟩ := reader
    cases held with
    | succ held => exact hNext
    | zero =>
      cases mode with
      | code => exact .inl rfl
      | lineComment => exact .inr (.inl rfl)
      | blockComment depth =>
        simp [step, Mode.read, hNe (d := '*') rfl, hNe (d := '/') rfl] at hNext
      | string quote triple raw =>
        cases triple with
        | false => exact .inr (.inr ⟨quote, raw, rfl⟩)
        | true =>
          have hQuote : c ≠ quote.char := by cases quote <;> exact hNe rfl
          simp [step, Mode.read, hNe (d := '\\') rfl, hQuote] at hNext

/-- If blanks lead back to code, so do two newlines: the first may be taken by a
backslash. -/
theorem after_newlines {reader : Reader} {blanks : Text} (hOwes : reader.Owes [])
    (hBlanks : ∀ c ∈ blanks, Text.isBlank c = true)
    (hMode : (reader.after blanks).mode = .code) :
    Alike (reader.after ['\n', '\n']) (inMode .nothing .code) := by
  have hModes := mode_of_after_blanks hBlanks hMode
  obtain ⟨behind, mode, held, heldAs⟩ := reader
  have hHeld : held = 0 ∨ held = 1 ∧ ∃ quote triple raw, mode = .string quote triple raw := by
    simpa [Owes] using hOwes
  have hNothing (behind : Behind) : behind.step '\n' = .nothing :=
    Behind.step_of_not_isNameChar _ rfl
  rcases hModes with rfl | rfl | ⟨quote, raw, rfl⟩
  · obtain rfl : held = 0 := by simpa using hHeld
    exact ⟨hNothing _, rfl, rfl, fun hHeld => absurd rfl hHeld⟩
  · obtain rfl : held = 0 := by simpa using hHeld
    exact ⟨hNothing _, rfl, rfl, fun hHeld => absurd rfl hHeld⟩
  · have hSecond : (Reader.after ⟨behind, .string quote false raw, held, heldAs⟩
        ['\n', '\n']).mode = .code ∧ (Reader.after ⟨behind, .string quote false raw, held, heldAs⟩
        ['\n', '\n']).held = 0 := by
      rcases hHeld with rfl | ⟨rfl, -⟩ <;> cases quote <;>
        simp [after, advance, step, Mode.read, Quote.char, Quote.ofChar?]
    have hBehind (reader : Reader) : (reader.after ['\n', '\n']).behind = .nothing := by
      have hStep (reader : Reader) (rest : Text) :
          (reader.step '\n' rest).1.behind = .nothing := by
        rw [behind_step, hNothing]
      rw [after_cons, after_cons, after_nil, hStep]
    exact ⟨hBehind _, hSecond.1, hSecond.2, fun hHeld => absurd hSecond.2 hHeld⟩

theorem openBlocks_blanks {text : Text} (h : ∀ c ∈ text, Text.isBlank c = true)
    (reader : Reader) (depth : Nat) : openBlocks depth (reader.codeChars text) = some depth := by
  refine openBlocks_of_isNoBrace fun c hc => ?_
  have hBlank := h c (mem_of_mem_codeChars hc)
  have hNe {d : Char} (hd : Text.isBlank d = false) : c ≠ d := by
    rintro rfl
    rw [hBlank] at hd
    cases hd
  simp [isNoBrace, hNe (d := '{') rfl, hNe (d := '}') rfl]

end Reader

/-! ## Closed texts -/

/-- A text that begins and ends in code and closes exactly the blocks that it opens. -/
structure IsClosed (text : Text) : Prop where
  ends : (Reader.start.after text).mode = .code
  balanced : openBlocks 0 (Reader.start.codeChars text) = some 0

instance (text : Text) : Decidable (IsClosed text) :=
  decidable_of_iff ((Reader.start.after text).mode = .code ∧
      openBlocks 0 (Reader.start.codeChars text) = some 0)
    ⟨fun h => ⟨h.1, h.2⟩, fun h => ⟨h.ends, h.balanced⟩⟩

theorem openBlocks_add {depth opened : Nat} {text : Text}
    (h : openBlocks depth text = some opened) (more : Nat) :
    openBlocks (depth + more) text = some (opened + more) := by
  induction text generalizing depth with
  | nil =>
    cases h
    rfl
  | cons c rest ih =>
    rw [openBlocks] at h
    split at h
    · cases h
    · rename_i hc
      have hNesting : nesting (depth + more) c = nesting depth c + more := by
        unfold nesting
        grind
      have hOpen : ¬(c = '}' ∧ depth + more = 0) := fun hBoth => hc ⟨hBoth.1, by omega⟩
      rw [openBlocks, if_neg hOpen, hNesting]
      exact ih h

theorem IsClosed.after {text : Text} (h : IsClosed text) :
    (Reader.start.after text).Alike
      (Reader.inCode (Reader.start.after text).behind) := by
  have hHeld := Reader.held_eq_zero_of_mode_code (Reader.owes_of_held_eq_zero rfl _) h.ends
  exact ⟨rfl, h.ends, hHeld, fun hNe => absurd hHeld hNe⟩

theorem isClosed_nil : IsClosed [] := ⟨rfl, rfl⟩

theorem IsClosed.after_line {text : Text} (h : IsClosed text) (hLine : Text.EndsLine text) :
    (Reader.start.after text).Alike Reader.start := by
  rcases List.eq_nil_or_concat text with rfl | ⟨front, c, rfl⟩
  · exact Reader.Alike.refl _
  · obtain rfl : c = '\n' := hLine c (by simp)
    rw [List.concat_eq_append] at h ⊢
    obtain ⟨mode, hMode⟩ :=
      Reader.exists_after_newline (Reader.owes_of_held_eq_zero rfl front : Reader.start.Owes front)
    obtain rfl : .code = mode := h.ends.symm.trans hMode.mode
    exact hMode

theorem cut_of_endsLine {front : Text} (h : Text.EndsLine front) (back : Text) :
    Cut front back :=
  .inr fun c hc => by rw [h c hc]; rfl

theorem IsClosed.append {front back : Text} (hFront : IsClosed front) (hLine : Text.EndsLine front)
    (hBack : IsClosed back) : IsClosed (front ++ back) where
  ends := by
    rw [Reader.after_append _ (cut_of_endsLine hLine back),
      ((hFront.after_line hLine).after back).mode]
    exact hBack.ends
  balanced := by
    rw [Reader.codeChars_append _ (cut_of_endsLine hLine back), openBlocks_append, hFront.balanced,
      (hFront.after_line hLine).codeChars_eq]
    exact hBack.balanced

/-! ## Parts that may stand in code -/

/-- A line comment has no code up to the newline. -/
theorem Reader.after_lineComment {reader : Reader} {text : Text}
    (hMode : reader.mode = .lineComment)
    (hHeld : reader.held ≠ 0 → reader.heldAs = .lineComment) (hText : '\n' ∉ text) :
    (reader.after text).mode = .lineComment ∧ reader.codeChars text = [] := by
  induction text generalizing reader with
  | nil => exact ⟨hMode, rfl⟩
  | cons c rest ih =>
    obtain ⟨hc, hRest⟩ : c ≠ '\n' ∧ '\n' ∉ rest := by
      simpa [eq_comm] using hText
    obtain ⟨behind, mode, held, heldAs⟩ := reader
    obtain rfl : mode = .lineComment := hMode
    cases held with
    | zero =>
      have hStep : (Reader.mk behind .lineComment 0 heldAs).step c rest =
          (⟨behind.step c, .lineComment, 0, .lineComment⟩, .lineComment) := by
        simp only [step, Mode.read, if_neg hc]
      obtain ⟨ihMode, ihCode⟩ :=
        @ih ⟨behind.step c, .lineComment, 0, .lineComment⟩ rfl (fun _ => rfl) hRest
      rw [after_cons, codeChars, hStep]
      exact ⟨ihMode, ihCode⟩
    | succ held =>
      obtain rfl : heldAs = .lineComment := hHeld (Nat.succ_ne_zero held)
      obtain ⟨ihMode, ihCode⟩ :=
        @ih ⟨behind.step c, .lineComment, held, .lineComment⟩ rfl (fun _ => rfl) hRest
      exact ⟨ihMode, ihCode⟩

/-- A line that holds a comment and nothing else. -/
theorem isClosed_commentLine {indent comment : Text} (hIndent : ∀ c ∈ indent, isInert c = true)
    (hComment : comment.startsWith "//".toList = true) (hLine : '\n' ∉ comment) :
    IsClosed (indent ++ comment ++ ['\n']) := by
  obtain ⟨rest, rfl⟩ := List.isPrefixOf_iff_prefix.mp hComment
  obtain ⟨hMode, hCode⟩ :=
    @Reader.after_lineComment ⟨Behind.nothing.step '/', .lineComment, 1, .lineComment⟩
      ('/' :: rest) rfl (fun _ => rfl) (fun hMem => hLine (List.mem_cons_of_mem _ hMem))
  change (Reader.start.after ('/' :: '/' :: rest)).mode = .lineComment at hMode
  change Reader.start.codeChars ('/' :: '/' :: rest) = [] at hCode
  have hIndented : (Reader.start.after indent).Alike Reader.start :=
    Reader.after_inert hIndent .code
  have hOwes : (Reader.start.after ('/' :: '/' :: rest)).Owes [] :=
    Reader.owes_after (Reader.owes_of_held_eq_zero rfl _)
  have hNewline : Cut ('/' :: '/' :: rest) ['\n'] := cut_of_head rfl
  show IsClosed (indent ++ ('/' :: '/' :: rest) ++ ['\n'])
  rw [List.append_assoc]
  constructor
  · rw [Reader.after_append _ (Reader.cut_of_inert hIndent _), (hIndented.after _).mode,
      Reader.after_append _ hNewline]
    generalize Reader.start.after ('/' :: '/' :: rest) = last at hMode hOwes
    obtain ⟨behind, mode, held, heldAs⟩ := last
    obtain rfl : mode = .lineComment := hMode
    obtain rfl : held = 0 := by simpa [Reader.Owes] using hOwes
    rfl
  · rw [Reader.codeChars_append _ (Reader.cut_of_inert hIndent _), openBlocks_append,
      Reader.openBlocks_inert hIndent, Option.bind_some, hIndented.codeChars_eq,
      Reader.codeChars_append _ hNewline, hCode, List.nil_append]
    refine openBlocks_of_isNoBrace fun c hc => ?_
    have hMem := Reader.mem_of_mem_codeChars hc
    rw [List.mem_singleton.mp hMem]
    rfl

theorem cut_of_isBlank (front : Text) {blanks : Text}
    (h : ∀ c ∈ blanks, Text.isBlank c = true) : Cut front blanks := by
  cases blanks with
  | nil => exact cut_nil_right _
  | cons c rest =>
    refine cut_of_head ?_
    by_cases hLine : c = '\n'
    · rw [hLine]
      rfl
    · have hInert := isInert_of_isBlank (h c List.mem_cons_self) hLine
      simp only [isInert, Bool.and_eq_true] at hInert
      exact hInert.1.1.1.1

section Trim

variable {text front blanks : Text} (hText : text = front ++ blanks)
  (hBlanks : ∀ c ∈ blanks, Text.isBlank c = true)

include hText hBlanks

theorem IsClosed.balanced_front (h : IsClosed text) :
    Code.openBlocks 0 (Reader.start.codeChars front) = some 0 := by
  have hBalanced := h.balanced
  rw [hText, Reader.codeChars_append _ (cut_of_isBlank front hBlanks), openBlocks_append]
    at hBalanced
  cases hDepth : Code.openBlocks 0 (Reader.start.codeChars front) with
  | none =>
    rw [hDepth] at hBalanced
    cases hBalanced
  | some depth =>
    rw [hDepth, Option.bind_some, Reader.openBlocks_blanks hBlanks] at hBalanced
    exact hBalanced

/-- What stands behind the last character that is not blank may be two newlines and any
closed text. -/
theorem IsClosed.trim (h : IsClosed text) {more : Text} (hMore : IsClosed more) :
    IsClosed (front ++ '\n' :: '\n' :: more) := by
  have hEnds := h.ends
  rw [hText, Reader.after_append _ (cut_of_isBlank front hBlanks)] at hEnds
  have hOwes : (Reader.start.after front).Owes [] :=
    Reader.owes_after (Reader.owes_of_held_eq_zero rfl _)
  have hNewlines : ((Reader.start.after front).after ['\n', '\n']).Alike Reader.start :=
    Reader.after_newlines hOwes hBlanks hEnds
  have hSplit : front ++ '\n' :: '\n' :: more = front ++ (['\n', '\n'] ++ more) := rfl
  have hCut : Cut front (['\n', '\n'] ++ more) := cut_of_head rfl
  have hMoreCut : Cut ['\n', '\n'] more := @cut_of_last ['\n'] '\n' more rfl
  rw [hSplit]
  constructor
  · rw [Reader.after_append _ hCut, Reader.after_append _ hMoreCut, (hNewlines.after _).mode]
    exact hMore.ends
  · have hNewlineBlocks :
        Code.openBlocks 0 ((Reader.start.after front).codeChars ['\n', '\n']) = some 0 :=
      Reader.openBlocks_blanks (List.all_eq_true.mp rfl) _ _
    rw [Reader.codeChars_append _ hCut, Reader.codeChars_append _ hMoreCut, openBlocks_append,
      h.balanced_front hText hBlanks, Option.bind_some, openBlocks_append, hNewlineBlocks,
      Option.bind_some, hNewlines.codeChars_eq]
    exact hMore.balanced

/-- One newline alone does if it ends in code. -/
theorem IsClosed.trim_newline (h : IsClosed text)
    (hEnds : (Reader.start.after (front ++ ['\n'])).mode = .code) :
    IsClosed (front ++ ['\n']) where
  ends := hEnds
  balanced := by
    rw [Reader.codeChars_append _ (cut_of_head rfl), openBlocks_append,
      h.balanced_front hText hBlanks]
    exact Reader.openBlocks_blanks (List.all_eq_true.mp rfl) _ _

end Trim

end XdrBindings.Code
