import XdrBindings.Code.Reader

/-!
# Reading a text part by part

A reader looks at most two characters ahead, and only when it stands at a slash, a star
or a quote.  So a text may be cut in front of any other character and behind any other
character: what is behind the cut does not matter for what is before it, and the reader
goes on behind the cut as if it had read the front alone.  Everything that compares the
readings of two texts rests on that.

What is held is passed over without being looked at.  `regionsFrom_read` therefore
takes a comment mark, a delimiter or an escape in one step.

## Main results

* `Mode.read_append` — a mode does not look past a cut.
* `regionsFrom_append`, `codeFrom_append`, `spotsFrom_append` — reading two parts.
* `regionsFrom_read` — one decision of the reader with all it holds.
* `Behind.raw_ofText` — what makes a string raw.
-/

namespace XdrBindings.Code

/-! ## Cutting a text -/

/-- Whether a character is decided without a look ahead, and decides nothing as one that
is looked at. -/
def isPlain (c : Char) : Bool := c != '/' && c != '*' && c != '\'' && c != '"'

/-- Whether a text may be cut between two parts. -/
def Cut (front back : Text) : Prop :=
  (∀ c ∈ back.head?, isPlain c = true) ∨ ∀ c ∈ front.getLast?, isPlain c = true

theorem Cut.of_cons {c : Char} {front back : Text} (h : Cut (c :: front) back) :
    Cut front back := by
  rcases h with hBack | hFront
  · exact .inl hBack
  · refine .inr fun d hd => hFront d ?_
    rw [List.getLast?_cons, Option.mem_def.mp hd]
    rfl

theorem cut_of_head {front : Text} {c : Char} {back : Text} (hc : isPlain c = true) :
    Cut front (c :: back) :=
  .inl fun _ hd => Option.some.inj hd ▸ hc

theorem cut_of_last {front : Text} {c : Char} {back : Text} (hc : isPlain c = true) :
    Cut (front ++ [c]) back :=
  .inr fun d hd => by
    rw [List.getLast?_concat] at hd
    exact Option.some.inj hd ▸ hc

theorem cut_nil_right (front : Text) : Cut front [] := .inl fun _ hc => by cases hc

theorem Quote.isPlain_char (quote : Quote) : isPlain quote.char = false := by
  cases quote <;> rfl

/-- A plain character is decided without a look at what follows. -/
theorem Mode.read_of_isPlain (behind : Behind) {c : Char} (hc : isPlain c = true)
    (mode : Mode) (rest other : Text) :
    mode.read behind c rest = mode.read behind c other := by
  obtain ⟨hSlash, hStar, hSingle, hDouble⟩ : c ≠ '/' ∧ c ≠ '*' ∧ c ≠ '\'' ∧ c ≠ '"' := by
    simpa [isPlain, and_assoc] using hc
  have hQuote : Quote.ofChar? c = none := by simp [Quote.ofChar?, Quote.char, hSingle, hDouble]
  have hNe (quote : Quote) : c ≠ quote.char := by cases quote <;> assumption
  cases mode with
  | code => simp only [Mode.read, hSlash, hQuote, false_and]
  | lineComment => rfl
  | blockComment depth => simp only [Mode.read, hSlash, hStar, false_and]
  | string quote triple raw => simp only [Mode.read, hNe quote, if_false]

theorem isTwiceAt_append {quote : Quote} {c : Char} {front back : Text}
    (hc : isPlain c = false) (hCut : Cut (c :: front) back) :
    quote.isTwiceAt (front ++ back) = quote.isTwiceAt front := by
  have hQuote {d : Char} (hd : isPlain d = true) : (quote.char == d) = false := by
    simp only [beq_eq_false_iff_ne]
    rintro rfl
    rw [Quote.isPlain_char] at hd
    cases hd
  unfold Quote.isTwiceAt Text.startsWith
  match front, back with
  | [], [] => rfl
  | [], d :: rest =>
    rcases hCut with hBack | hFront
    · simp [List.isPrefixOf, hQuote (hBack d rfl)]
    · rw [hFront c rfl] at hc
      cases hc
  | [x], [] => rfl
  | [x], d :: rest =>
    rcases hCut with hBack | hFront
    · simp [List.isPrefixOf, hQuote (hBack d rfl)]
    · simp [List.isPrefixOf, hQuote (hFront x rfl)]
  | x :: y :: rest, back => simp [List.isPrefixOf]

theorem head?_append_eq {c d : Char} {front back : Text} (hc : isPlain c = false)
    (hd : isPlain d = false) (hCut : Cut (c :: front) back) :
    ((front ++ back).head? = some d) = (front.head? = some d) := by
  cases front with
  | cons x rest => rfl
  | nil =>
    cases back with
    | nil => rfl
    | cons x rest =>
      rcases hCut with hBack | hFront
      · have hNe : x ≠ d := by
          rintro rfl
          rw [hBack x rfl] at hd
          cases hd
        simp [hNe]
      · rw [hFront c rfl] at hc
        cases hc

theorem Mode.read_append (behind : Behind) {c : Char} {front back : Text} (mode : Mode)
    (hCut : Cut (c :: front) back) :
    mode.read behind c (front ++ back) = mode.read behind c front := by
  by_cases hc : isPlain c = true
  · exact Mode.read_of_isPlain behind hc mode _ _
  simp only [Bool.not_eq_true] at hc
  have hSlash : ((front ++ back).head? = some '/') = (front.head? = some '/') :=
    head?_append_eq hc rfl hCut
  have hStar : ((front ++ back).head? = some '*') = (front.head? = some '*') :=
    head?_append_eq hc rfl hCut
  cases mode with
  | code => simp only [Mode.read, hSlash, hStar, isTwiceAt_append hc hCut]
  | lineComment => rfl
  | blockComment depth => simp only [Mode.read, hSlash, hStar]
  | string quote triple raw => simp only [Mode.read, isTwiceAt_append hc hCut]

namespace Reader

theorem step_append (reader : Reader) {c : Char} {front back : Text}
    (hCut : Cut (c :: front) back) :
    reader.step c (front ++ back) = reader.step c front := by
  unfold step
  split
  · rfl
  · rw [Mode.read_append _ _ hCut]

theorem behind_step (reader : Reader) (c : Char) (rest : Text) :
    (reader.step c rest).1.behind = reader.behind.step c := by
  unfold step
  split <;> rfl

/-- The reader behind a text that nothing follows. -/
def after (reader : Reader) (text : Text) : Reader := reader.advance text.length text

@[simp] theorem after_nil (reader : Reader) : reader.after [] = reader := rfl

theorem after_cons (reader : Reader) (c : Char) (rest : Text) :
    reader.after (c :: rest) = (reader.step c rest).1.after rest := rfl

theorem after_append (reader : Reader) {front back : Text} (hCut : Cut front back) :
    reader.after (front ++ back) = (reader.after front).after back := by
  induction front generalizing reader with
  | nil => rfl
  | cons c rest ih =>
    rw [List.cons_append, after_cons, after_cons, step_append _ hCut, ih _ hCut.of_cons]

theorem regionsFrom_append (reader : Reader) {front back : Text} (hCut : Cut front back) :
    reader.regionsFrom (front ++ back) =
      reader.regionsFrom front ++ (reader.after front).regionsFrom back := by
  induction front generalizing reader with
  | nil => rfl
  | cons c rest ih =>
    simp only [List.cons_append, regionsFrom, step_append _ hCut, ih _ hCut.of_cons, after_cons]

theorem codeFrom_append (reader : Reader) (position : Nat) {front back : Text}
    (hCut : Cut front back) :
    reader.codeFrom position (front ++ back) =
      reader.codeFrom position front ++
        (reader.after front).codeFrom (position + front.length) back := by
  induction front generalizing reader position with
  | nil => rfl
  | cons c rest ih =>
    simp only [List.cons_append, codeFrom, step_append _ hCut, ih _ _ hCut.of_cons, after_cons,
      List.length_cons, Nat.add_right_comm _ 1, Nat.add_assoc]
    split <;> rfl

end Reader

/-- The spot with more text behind it. -/
def Spot.before (more : Text) (spot : Spot) : Spot := { spot with rest := spot.rest ++ more }

namespace Reader

theorem spotsFrom_append (reader : Reader) (position : Nat) {front back : Text}
    (hCut : Cut front back) :
    reader.spotsFrom position (front ++ back) =
      (reader.spotsFrom position front).map (Spot.before back) ++
        (reader.after front).spotsFrom (position + front.length) back := by
  induction front generalizing reader position with
  | nil => rfl
  | cons c rest ih =>
    simp only [List.cons_append, spotsFrom, step_append _ hCut, ih _ _ hCut.of_cons, after_cons,
      List.length_cons, Nat.add_right_comm _ 1, Nat.add_assoc]
    split <;> rfl

end Reader

/-! ## One decision at a time -/

/-- What counts behind a text that follows what counts as `behind`. -/
def Behind.after (behind : Behind) (text : Text) : Behind := text.foldl Behind.step behind

@[simp] theorem Behind.after_nil (behind : Behind) : behind.after [] = behind := rfl

@[simp] theorem Behind.after_cons (behind : Behind) (c : Char) (rest : Text) :
    behind.after (c :: rest) = (behind.step c).after rest := rfl

theorem Behind.after_append (behind : Behind) (front back : Text) :
    behind.after (front ++ back) = (behind.after front).after back :=
  List.foldl_append

theorem Behind.ofText_append (front back : Text) :
    Behind.ofText (front ++ back) = (Behind.ofText front).after back :=
  List.foldl_append

namespace Reader

/-- A reader that holds nothing. -/
def inMode (behind : Behind) (mode : Mode) : Reader := ⟨behind, mode, 0, .code⟩

/-- What a reader last held as does not matter once it holds nothing. -/
theorem regionsFrom_of_held_eq_zero {reader : Reader} (hHeld : reader.held = 0) (text : Text) :
    reader.regionsFrom text = (inMode reader.behind reader.mode).regionsFrom text := by
  obtain ⟨behind, mode, held, heldAs⟩ := reader
  cases hHeld
  cases text <;> rfl

theorem regionsFrom_held (behind : Behind) (mode : Mode) (held : Nat) (heldAs : Region)
    (text : Text) :
    (Reader.mk behind mode held heldAs).regionsFrom text =
      List.replicate (text.take held).length heldAs ++
        (inMode (behind.after (text.take held)) mode).regionsFrom (text.drop held) := by
  induction held generalizing behind text with
  | zero => exact regionsFrom_of_held_eq_zero rfl text
  | succ held ih =>
    cases text with
    | nil => rfl
    | cons c rest =>
      simp only [regionsFrom, step, ih, List.take_succ_cons, List.length_cons,
        List.replicate_succ, List.cons_append, Behind.after_cons, List.drop_succ_cons]

/-- One decision of a reader that holds nothing, with all that it holds thereafter. -/
theorem regionsFrom_read {behind : Behind} {mode next : Mode} {c : Char} {rest : Text}
    {held : Nat} {region : Region} (hRead : mode.read behind c rest = (next, held, region)) :
    (inMode behind mode).regionsFrom (c :: rest) =
      List.replicate ((rest.take held).length + 1) region ++
        (inMode ((behind.step c).after (rest.take held)) next).regionsFrom
          (rest.drop held) := by
  have hStep : (inMode behind mode).regionsFrom (c :: rest) =
      region :: (Reader.mk (behind.step c) next held region).regionsFrom rest := by
    simp only [regionsFrom, step, inMode, hRead]
  rw [hStep, regionsFrom_held, List.replicate_succ, List.cons_append]

end Reader

/-! ## Raw strings -/

/-- Whether a text ends with an `r` that begins a word. -/
def EndsRaw (text : Text) : Prop :=
  ∃ front, text = front ++ ['r'] ∧ ∀ c ∈ front.getLast?, isNameChar c = false

theorem Behind.word_ofText (text : Text) :
    (Behind.ofText text).word = text.getLast?.any isNameChar := by
  rcases List.eq_nil_or_concat text with rfl | ⟨front, c, rfl⟩
  · rfl
  · simp [Behind.ofText_append, Behind.step]

theorem Behind.raw_ofText (text : Text) : (Behind.ofText text).raw = true ↔ EndsRaw text := by
  rcases List.eq_nil_or_concat text with rfl | ⟨front, c, rfl⟩
  · simp [Behind.ofText, Behind.nothing, EndsRaw]
  · have hStep : (Behind.ofText (front ++ [c])).raw =
        (c == 'r' && !front.getLast?.any isNameChar) := by
      simp [Behind.ofText_append, Behind.step, Behind.word_ofText]
    simp only [List.concat_eq_append, hStep]
    constructor
    · intro h
      simp only [Bool.and_eq_true, beq_iff_eq, Bool.not_eq_true'] at h
      refine ⟨front, by rw [h.1], ?_⟩
      intro d hd
      simpa [Option.mem_def.mp hd] using h.2
    · rintro ⟨other, hEq, hWord⟩
      obtain ⟨rfl, hc⟩ := List.append_inj' hEq rfl
      cases hLast : front.getLast? with
      | none => simpa using hc
      | some d => simpa [hWord d (by simp [hLast])] using hc

end XdrBindings.Code
