import XdrBindings.Proofs.Code.Segmentation
import XdrBindings.Proofs.Code.WordRuns

/-!
# The pieces of a renamed text

How a text is cut into comments, strings and characters of code is decided by marks, which belong
to no word, and by whether an `r` of its own stands in front of a string.  So where words of code
are renamed to words, and no word becomes such an `r` or was one, the cut is the same: the pieces
of a word are replaced by those of its new form, all others stay.

## Main results

* `Stands.sameMarks` — a piece stands the same way where the marks around it are the same.
* `exists_renamed_pieces` — the pieces of a text with its words renamed.
* `units_renameWords` — what is read of a text with its words renamed.
* `renameWord_exact` — replacing a name replaces words of code and nothing else.
-/

namespace XdrBindings.Code

/-! ## The same marks ahead -/

/-- Whether the same characters that belong to no word stand at the beginning of two texts. -/
structure SameMarks (text other : Text) : Prop where
  starts_iff : ∀ marks : Text, (∀ c ∈ marks, Text.isWord c = false) →
    (marks <+: text ↔ marks <+: other)
  nil_iff : text = [] ↔ other = []

namespace SameMarks

variable {text other : Text}

theorem refl (text : Text) : SameMarks text text := ⟨fun _ _ => Iff.rfl, Iff.rfl⟩

theorem append (front : Text) (h : SameMarks text other) :
    SameMarks (front ++ text) (front ++ other) := by
  induction front with
  | nil => exact h
  | cons c front ih =>
    refine ⟨fun marks hMarks => ?_, by simp⟩
    cases marks with
    | nil => simp
    | cons mark marks =>
      rw [List.cons_append, List.cons_append, List.cons_prefix_cons, List.cons_prefix_cons,
        ih.starts_iff marks fun c hc => hMarks c (List.mem_cons_of_mem _ hc)]

/-- Texts that begin with a word have no marks at their beginning. -/
theorem of_words {word new : Text} (hSome : word ≠ []) (hWord : ∀ c ∈ word, Text.isWord c = true)
    (hNewSome : new ≠ []) (hNew : ∀ c ∈ new, Text.isWord c = true) :
    SameMarks (word ++ text) (new ++ other) := by
  obtain ⟨c, word, rfl⟩ := List.exists_cons_of_ne_nil hSome
  obtain ⟨d, new, rfl⟩ := List.exists_cons_of_ne_nil hNewSome
  have hc := hWord c List.mem_cons_self
  have hd := hNew d List.mem_cons_self
  refine ⟨fun marks hMarks => ?_, by simp⟩
  cases marks with
  | nil => simp
  | cons mark marks =>
    have hMark := hMarks mark List.mem_cons_self
    rw [List.cons_append, List.cons_append, List.cons_prefix_cons, List.cons_prefix_cons]
    refine iff_of_false ?_ ?_
    · rintro ⟨rfl, -⟩
      rw [hc] at hMark
      cases hMark
    · rintro ⟨rfl, -⟩
      rw [hd] at hMark
      cases hMark

theorem head?_eq_iff (h : SameMarks text other) {c : Char} (hc : Text.isWord c = false) :
    text.head? = some c ↔ other.head? = some c := by
  have hHead (text : Text) : text.head? = some c ↔ [c] <+: text := by
    cases text <;> simp [List.cons_prefix_cons, eq_comm]
  rw [hHead, hHead, h.starts_iff [c] (List.forall_mem_singleton.mpr hc)]

end SameMarks

theorem Quote.isWord_char (quote : Quote) : Text.isWord quote.char = false := by
  cases quote <;> rfl

theorem Quote.isWord_of_mem_delimiter {quote : Quote} {triple : Bool} {c : Char}
    (h : c ∈ quote.delimiter triple) : Text.isWord c = false := by
  have hc : c = quote.char := by
    unfold delimiter at h
    split at h <;> simpa using h
  rw [hc, quote.isWord_char]

section Marks

variable {rest other : Text}

theorem SameMarks.pair_iff (h : SameMarks rest other) {first second : Char}
    (hFirst : Text.isWord first = false) (hSecond : Text.isWord second = false) :
    [first, second] <+: rest ↔ [first, second] <+: other :=
  h.starts_iff _ (List.forall_mem_cons.mpr ⟨hFirst, List.forall_mem_singleton.mpr hSecond⟩)

theorem SameMarks.stringStops_iff (h : SameMarks rest other) {quote : Quote} {triple : Bool} :
    StringStops quote triple rest ↔ StringStops quote triple other := by
  unfold StringStops
  rw [h.nil_iff, h.starts_iff _ fun c hc => Quote.isWord_of_mem_delimiter hc,
    h.head?_eq_iff (c := '\n') rfl]

theorem CommentInside.sameMarks {inner : Text} (h : CommentInside inner rest)
    (hSame : SameMarks rest other) : CommentInside inner other := by
  induction h generalizing other with
  | stop hStop => exact .stop (hStop.imp hSame.nil_iff.mp (hSame.pair_iff rfl rfl).mp)
  | @char c inner rest hClose hOpen _ ih =>
    have hAhead := hSame.append (c :: inner)
    exact .char (mt (hAhead.pair_iff rfl rfl).mpr hClose) (mt (hAhead.pair_iff rfl rfl).mpr hOpen)
      (ih hSame)
  | @nested inner outer rest _ _ ihInner ihOuter =>
    exact .nested (ihInner (hSame.append ('*' :: '/' :: outer))) (ihOuter hSame)
  | nestedOpen hInner _ =>
    obtain rfl := hSame.nil_iff.mp rfl
    exact .nestedOpen hInner

theorem StringInside.sameMarks {quote : Quote} {triple raw : Bool} {inner : Text}
    (h : StringInside quote triple raw inner rest) (hSame : SameMarks rest other) :
    StringInside quote triple raw inner other := by
  induction h with
  | stop hStop => exact .stop (hSame.stringStops_iff.mp hStop)
  | escape hRaw _ ih => exact .escape hRaw (ih hSame)
  | cutEscape hRaw =>
    obtain rfl := hSame.nil_iff.mp rfl
    exact .cutEscape hRaw
  | @plain c inner rest hEscape hGoes _ ih =>
    exact .plain hEscape (mt (hSame.append (c :: inner)).stringStops_iff.mpr hGoes) (ih hSame)

/-- A piece stands the same way where the marks ahead are the same, and an `r` of its own behind it
or not. -/
theorem Stands.sameMarks {before behind : Text} {piece : Piece} (h : Stands before piece rest)
    (hRaw : EndsRaw before ↔ EndsRaw behind) (hSame : SameMarks rest other) :
    Stands behind piece other := by
  have hTriple (quote : Quote) (front : Text) :
      quote.delimiter true <+: front ++ rest ↔ quote.delimiter true <+: front ++ other :=
    (hSame.append front).starts_iff _ fun c hc => Quote.isWord_of_mem_delimiter hc
  cases h with
  | lineComment hBody hRest =>
    exact .lineComment hBody (hRest.imp hSame.nil_iff.mp (hSame.head?_eq_iff rfl).mp)
  | blockComment hInside => exact .blockComment (hInside.sameMarks (hSame.append ['*', '/']))
  | openComment hInside =>
    obtain rfl := hSame.nil_iff.mp rfl
    exact .openComment hInside
  | @string quote triple raw inner _ hThree hIff hInside =>
    have hQuotes := hTriple quote (quote.delimiter triple ++ (inner ++ quote.delimiter triple))
    simp only [List.append_assoc] at hQuotes
    exact .string (hThree.trans hQuotes) (hIff.trans hRaw) (hInside.sameMarks (hSame.append _))
  | @openString quote triple raw inner _ hThree hIff hInside hOpen =>
    have hQuotes := hTriple quote (quote.delimiter triple ++ inner)
    simp only [List.append_assoc] at hQuotes
    exact .openString (hThree.trans hQuotes) (hIff.trans hRaw) (hInside.sameMarks hSame)
      (hOpen.imp hSame.nil_iff.mp (And.imp_right (hSame.head?_eq_iff rfl).mp))
  | @code c _ hSlash hStar hQuote =>
    have hAhead := hSame.append [c]
    exact .code (mt (hAhead.pair_iff rfl rfl).mpr hSlash) (mt (hAhead.pair_iff rfl rfl).mpr hStar)
      hQuote

end Marks

/-! ## Pieces with their characters -/

namespace Piece

/-- What is read of pieces. -/
def units (pieces : List Piece) : List (Char × Region) :=
  pieces.flatMap fun piece => piece.text.map (·, piece.region)

/-- The comments and strings among pieces. -/
def literals (pieces : List Piece) : List Piece := pieces.filter (·.region != .code)

/-- A character of code. -/
def ofCode (c : Char) : Piece := ⟨.code, [c]⟩

@[simp] theorem units_cons (piece : Piece) (rest : List Piece) :
    units (piece :: rest) = piece.text.map (·, piece.region) ++ units rest := rfl

theorem literals_cons (piece : Piece) (rest : List Piece) :
    literals (piece :: rest) = literals [piece] ++ literals rest :=
  List.filter_append [piece] rest

theorem map_fst_units (pieces : List Piece) : (units pieces).map Prod.fst = joined pieces := by
  induction pieces with
  | nil => rfl
  | cons piece rest ih =>
    rw [units_cons, List.map_append, ih, List.map_map, joined_cons]
    exact congrArg (· ++ _) (List.map_id _)

theorem map_snd_units (pieces : List Piece) : (units pieces).map Prod.snd = regions pieces := by
  induction pieces with
  | nil => rfl
  | cons piece rest ih =>
    rw [units_cons, List.map_append, ih, List.map_map, regions_cons]
    exact congrArg (· ++ _) List.map_const'

theorem units_ofCode (word : Text) (rest : List Piece) :
    units (word.map ofCode ++ rest) = word.map (·, .code) ++ units rest := by
  induction word with
  | nil => rfl
  | cons c word ih =>
    rw [List.map_cons, List.cons_append, units_cons, ih]
    rfl

theorem joined_ofCode (word : Text) (rest : List Piece) :
    joined (word.map ofCode ++ rest) = word ++ joined rest := by
  rw [← map_fst_units, units_ofCode, List.map_append, map_fst_map_code, map_fst_units]

theorem literals_ofCode (word : Text) (rest : List Piece) :
    literals (word.map ofCode ++ rest) = literals rest := by
  have hNone : literals (word.map ofCode) = [] := by
    refine List.filter_eq_nil_iff.mpr fun piece hPiece => ?_
    obtain ⟨c, -, rfl⟩ := List.mem_map.mp hPiece
    exact Bool.false_ne_true
  rw [literals, List.filter_append]
  exact congrArg (· ++ _) hNone

end Piece

/-- What is read of a text is what is read of its pieces. -/
theorem IsSegmentation.units_eq {text : Text} {pieces : List Piece}
    (h : IsSegmentation text pieces) : units text = Piece.units pieces := by
  rw [units, regions_eq_of_isSegmentation h, ← h.joined, ← Piece.map_fst_units,
    ← Piece.map_snd_units, ← List.unzip_fst, ← List.unzip_snd, List.zip_unzip]

/-! ## Where words stand -/

section Words

variable {before rest : Text} {piece : Piece}

theorem Stands.eq_ofCode (h : Stands before piece rest) (hCode : piece.region = .code) :
    ∃ c, piece = .ofCode c := by
  have hQuote (quote : Quote) : quote.region ≠ .code := by cases quote <;> decide
  cases h with
  | code _ _ _ => exact ⟨_, rfl⟩
  | string _ _ _ => exact absurd hCode (hQuote _)
  | openString _ _ _ _ => exact absurd hCode (hQuote _)
  | lineComment _ _ => cases hCode
  | blockComment _ => cases hCode
  | openComment _ => cases hCode

/-- Comments and strings begin with a mark. -/
theorem Stands.isWord_head (h : Stands before piece rest) (hCode : piece.region ≠ .code) :
    ∃ c tail, piece.text = c :: tail ∧ Text.isWord c = false := by
  have hQuotes (quote : Quote) (triple : Bool) (more : Text) :
      ∃ c tail, quote.delimiter triple ++ more = c :: tail ∧ Text.isWord c = false := by
    obtain ⟨tail, hTail⟩ := quote.delimiter_eq_cons triple
    exact ⟨quote.char, tail ++ more, by rw [hTail]; rfl, quote.isWord_char⟩
  cases h with
  | code _ _ _ => exact absurd rfl hCode
  | string _ _ _ => exact hQuotes _ _ _
  | openString _ _ _ _ => exact hQuotes _ _ _
  | lineComment _ _ => exact ⟨'/', _, rfl, rfl⟩
  | blockComment _ => exact ⟨'/', _, rfl, rfl⟩
  | openComment _ => exact ⟨'/', _, rfl, rfl⟩

/-- No word reaches from a comment or a string into what follows. -/
theorem Stands.isWord_apart (h : Stands before piece rest) (hCode : piece.region ≠ .code) :
    (∀ c ∈ piece.text.getLast?, Text.isWord c = false) ∨
      ∀ c ∈ rest.head?, Text.isWord c = false := by
  have hLine (hHead : rest.head? = some '\n') : ∀ c ∈ rest.head?, Text.isWord c = false := by
    intro c hc
    rw [hHead] at hc
    exact Option.some.inj hc ▸ rfl
  cases h with
  | code _ _ _ => exact absurd rfl hCode
  | @string quote triple _ _ _ _ _ _ =>
    refine .inl fun c hc => ?_
    obtain ⟨more, hMore⟩ := quote.delimiter_eq_cons triple
    have hSome : quote.delimiter triple ≠ [] := by simp [hMore]
    rw [← List.append_assoc, List.getLast?_append_of_ne_nil _ hSome] at hc
    exact Quote.isWord_of_mem_delimiter (List.mem_of_getLast? hc)
  | openString _ _ _ hOpen =>
    rcases hOpen with rfl | ⟨-, hHead⟩
    · exact .inr nofun
    · exact .inr (hLine hHead)
  | lineComment _ hRest =>
    rcases hRest with rfl | hHead
    · exact .inr nofun
    · exact .inr (hLine hHead)
  | blockComment _ =>
    refine .inl fun c hc => ?_
    obtain rfl : '/' = c := by simpa [List.getLast?_cons] using hc
    rfl
  | openComment _ => exact .inr nofun

theorem stands_ofCode {c : Char} (hc : Text.isWord c = true) (before rest : Text) :
    Stands before (.ofCode c) rest := by
  have hNe {d : Char} (hd : Text.isWord d = false) : c ≠ d := by
    rintro rfl
    rw [hc] at hd
    cases hd
  exact .code (fun hStarts => hNe rfl (pair_isPrefix_cons.mp hStarts).1)
    (fun hStarts => hNe rfl (pair_isPrefix_cons.mp hStarts).1)
    fun quote => hNe quote.isWord_char

/-- Behind a word of code stands what stood there. -/
theorem AllStand.append_word {pieces : List Piece} {word : Text}
    (hWord : ∀ c ∈ word, Text.isWord c = true) (h : AllStand (before ++ word) pieces) :
    AllStand before (word.map Piece.ofCode ++ pieces) := by
  induction word generalizing before with
  | nil => simpa using h
  | cons c word ih =>
    obtain ⟨hc, hRest⟩ := List.forall_mem_cons.mp hWord
    refine .cons (stands_ofCode hc _ _) (ih hRest ?_)
    rw [List.append_assoc]
    exact h

/-- The word of code, empty or not, that pieces begin with. -/
theorem AllStand.exists_word {pieces : List Piece} (h : AllStand before pieces) :
    ∃ word rest, pieces = word.map Piece.ofCode ++ rest ∧ (∀ c ∈ word, Text.isWord c = true) ∧
      (∀ c ∈ (Piece.joined rest).head?, Text.isWord c = false) ∧
      AllStand (before ++ word) rest := by
  induction h with
  | @nil before => exact ⟨[], [], rfl, nofun, nofun, .nil⟩
  | @cons before piece rest hPiece hRest ih =>
    have hNone (hHead : ∀ c ∈ (Piece.joined (piece :: rest)).head?, Text.isWord c = false) :
        ∃ word others, piece :: rest = word.map Piece.ofCode ++ others ∧
          (∀ c ∈ word, Text.isWord c = true) ∧
          (∀ c ∈ (Piece.joined others).head?, Text.isWord c = false) ∧
          AllStand (before ++ word) others :=
      ⟨[], piece :: rest, rfl, nofun, hHead, by simpa using AllStand.cons hPiece hRest⟩
    by_cases hCode : piece.region = .code
    · obtain ⟨c, rfl⟩ := hPiece.eq_ofCode hCode
      cases hc : Text.isWord c with
      | false => exact hNone fun d hd => Option.some.inj hd ▸ hc
      | true =>
        obtain ⟨word, others, rfl, hWord, hHead, hOthers⟩ := ih
        refine ⟨c :: word, others, rfl, List.forall_mem_cons.mpr ⟨hc, hWord⟩, hHead, ?_⟩
        rw [List.append_assoc] at hOthers
        exact hOthers
    · obtain ⟨c, tail, hText, hc⟩ := hPiece.isWord_head hCode
      refine hNone fun d hd => ?_
      rw [Piece.joined_cons, hText] at hd
      exact Option.some.inj hd ▸ hc

/-- Pieces go on with a word of code, or with a piece that is no part of one. -/
theorem AllStand.words_induction {motive : ∀ before pieces, AllStand before pieces → Prop}
    (nil : ∀ before, motive before [] .nil)
    (own : ∀ before piece rest (hPiece : Stands before piece (Piece.joined rest))
      (hRest : AllStand (before ++ piece.text) rest),
      (∀ c, Text.isWord c = true → piece ≠ .ofCode c) → motive _ rest hRest →
      motive before (piece :: rest) (.cons hPiece hRest))
    (word : ∀ before word rest (hWord : ∀ c ∈ word, Text.isWord c = true)
      (hRest : AllStand (before ++ word) rest), word ≠ [] →
      (∀ c ∈ (Piece.joined rest).head?, Text.isWord c = false) → motive _ rest hRest →
      motive before (word.map Piece.ofCode ++ rest) (hRest.append_word hWord))
    {before : Text} {pieces : List Piece} (h : AllStand before pieces) :
    motive before pieces h := by
  -- a word is many pieces, so the induction is on their number
  induction hLength : pieces.length using Nat.strongRecOn generalizing before pieces with
  | ind length ih =>
    subst hLength
    obtain ⟨run, more, rfl, hRun, hHead, hMore⟩ := h.exists_word
    rcases eq_or_ne run [] with rfl | hSome
    · cases h with
      | nil => exact nil before
      | @cons _ piece rest hPiece hRest =>
        refine own before piece rest hPiece hRest ?_ (ih rest.length (Nat.lt_succ_self _) hRest rfl)
        rintro c hc rfl
        rw [hHead c rfl] at hc
        cases hc
    · have hShorter : more.length < (run.map Piece.ofCode ++ more).length := by
        rw [List.length_append, List.length_map]
        exact Nat.lt_add_of_pos_left (List.length_pos_iff.mpr hSome)
      exact word before run more hRun hMore hSome hHead (ih _ hShorter hMore rfl)

end Words

/-! ## The words of pieces -/

section Cut

variable {before : Text} {piece : Piece} {rest : List Piece}

theorem Piece.head?_units_of_joined
    (hRest : ∀ c ∈ (Piece.joined rest).head?, Text.isWord c = false) :
    ∀ unit ∈ (Piece.units rest).head?, Text.isWord unit.1 = false := by
  intro unit hUnit
  refine hRest unit.1 ?_
  rw [← Piece.map_fst_units, List.head?_map]
  exact Option.mem_map_of_mem _ hUnit

/-- A piece that is no part of a word of code holds whole words. -/
theorem Stands.units_apart (h : Stands before piece (Piece.joined rest))
    (hOwn : ∀ c, Text.isWord c = true → piece ≠ .ofCode c) :
    (∀ unit ∈ (piece.text.map (·, piece.region)).getLast?, Text.isWord unit.1 = false) ∨
      ∀ unit ∈ (Piece.units rest).head?, Text.isWord unit.1 = false := by
  by_cases hCode : piece.region = .code
  · obtain ⟨c, rfl⟩ := h.eq_ofCode hCode
    have hc : Text.isWord c = false := Bool.eq_false_iff.mpr fun hc => hOwn c hc rfl
    exact .inl fun unit hUnit => Option.some.inj hUnit ▸ hc
  · refine (h.isWord_apart hCode).imp (fun hLast unit hUnit => ?_) Piece.head?_units_of_joined
    rw [List.getLast?_map] at hUnit
    obtain ⟨c, hc, rfl⟩ := Option.map_eq_some_iff.mp hUnit
    exact hLast c hc

theorem wordRuns_ofCode {word : Text} (hSome : word ≠ [])
    (hWord : ∀ c ∈ word, Text.isWord c = true)
    (hRest : ∀ c ∈ (Piece.joined rest).head?, Text.isWord c = false) :
    wordRuns (Piece.units (word.map .ofCode ++ rest)) =
      word.map (·, .code) :: wordRuns (Piece.units rest) := by
  rw [Piece.units_ofCode]
  exact wordRuns_append_word (by simpa using hSome) (List.forall_mem_map.mpr hWord)
    (Piece.head?_units_of_joined hRest)

end Cut

/-! ## Renaming the words of pieces -/

/-- A function that keeps words, and what counts behind them. -/
structure KeepsReading (rename : Text → Text) : Prop extends KeepsWords rename where
  behind : ∀ word, word ≠ [] → (∀ c ∈ word, Text.isWord c = true) →
    ∀ behind : Behind, behind.after (rename word) = behind.after word

theorem endsRaw_iff {before other : Text} (h : Behind.ofText before = Behind.ofText other) :
    EndsRaw before ↔ EndsRaw other := by
  rw [← Behind.raw_ofText, ← Behind.raw_ofText, h]

section Rename

variable {rename : Text → Text}

/-- A piece that is no part of a word of code is not renamed. -/
theorem Stands.renameUnits_cons (hKeeps : KeepsWords rename) {before : Text} {piece : Piece}
    {rest : List Piece} (hPiece : Stands before piece (Piece.joined rest))
    (hOwn : ∀ c, Text.isWord c = true → piece ≠ .ofCode c) :
    renameUnits rename (Piece.units (piece :: rest)) =
      piece.text.map (·, piece.region) ++ renameUnits rename (Piece.units rest) := by
  rw [Piece.units_cons, renameUnits_append (hPiece.units_apart hOwn)]
  congr 1
  by_cases hCode : piece.region = .code
  · obtain ⟨c, rfl⟩ := hPiece.eq_ofCode hCode
    have hc : Text.isWord c = false := Bool.eq_false_iff.mpr fun hc => hOwn c hc rfl
    exact hKeeps.renameUnits_single hc
  · exact renameUnits_eq_self (List.forall_mem_map.mpr fun _ _ => hCode)

/-- A word of code is renamed as a whole. -/
theorem renameUnits_ofCode (rename : Text → Text) {word : Text} {rest : List Piece}
    (hSome : word ≠ []) (hWord : ∀ c ∈ word, Text.isWord c = true)
    (hRest : ∀ c ∈ (Piece.joined rest).head?, Text.isWord c = false) :
    renameUnits rename (Piece.units (word.map .ofCode ++ rest)) =
      (rename word).map (·, .code) ++ renameUnits rename (Piece.units rest) := by
  have hRun : renameRun rename (word.map (·, .code)) = (rename word).map (·, .code) := by
    rw [renameRun, if_pos (by simp), map_fst_map_code]
  rw [renameUnits, wordRuns_ofCode hSome hWord hRest, List.flatMap_cons, hRun]
  rfl

/-- Pieces with their words renamed stand where the pieces stood. -/
theorem exists_renamed_pieces (hKeeps : KeepsReading rename) {before other : Text}
    {pieces : List Piece} (hStand : AllStand before pieces)
    (hBehind : Behind.ofText before = Behind.ofText other) :
    ∃ others, AllStand other others ∧
      Piece.units others = renameUnits rename (Piece.units pieces) ∧
      Piece.literals others = Piece.literals pieces ∧
      SameMarks (Piece.joined pieces) (Piece.joined others) := by
  induction hStand using AllStand.words_induction generalizing other with
  | nil => exact ⟨[], .nil, rfl, rfl, .refl _⟩
  | own before piece rest hPiece _ hOwn ih =>
    have hAfter : Behind.ofText (before ++ piece.text) = Behind.ofText (other ++ piece.text) := by
      rw [Behind.ofText_append, Behind.ofText_append, hBehind]
    obtain ⟨others, hOthers, hUnits, hLiterals, hMarks⟩ := ih hAfter
    refine ⟨piece :: others, .cons (hPiece.sameMarks (endsRaw_iff hBehind) hMarks) hOthers,
      ?_, ?_, hMarks.append piece.text⟩
    · rw [hPiece.renameUnits_cons hKeeps.toKeepsWords hOwn, Piece.units_cons, hUnits]
    · rw [Piece.literals_cons, hLiterals, ← Piece.literals_cons]
  | word before word rest hWord _ hSome hHead ih =>
    obtain ⟨hNewSome, hNewWord⟩ := hKeeps.word word hSome hWord
    have hAfter : Behind.ofText (before ++ word) = Behind.ofText (other ++ rename word) := by
      rw [Behind.ofText_append, Behind.ofText_append, hBehind, hKeeps.behind word hSome hWord]
    obtain ⟨others, hOthers, hUnits, hLiterals, -⟩ := ih hAfter
    refine ⟨(rename word).map .ofCode ++ others, hOthers.append_word hNewWord, ?_, ?_, ?_⟩
    · rw [Piece.units_ofCode, hUnits, renameUnits_ofCode rename hSome hWord hHead]
    · rw [Piece.literals_ofCode, Piece.literals_ofCode, hLiterals]
    · -- what lies ahead begins with a word in both texts
      rw [Piece.joined_ofCode, Piece.joined_ofCode]
      exact .of_words hSome hWord hNewSome hNewWord

/-- A text with its words renamed is cut like the text. -/
theorem IsSegmentation.exists_renamed (hKeeps : KeepsReading rename) {text : Text}
    {pieces : List Piece} (h : IsSegmentation text pieces) :
    ∃ others, IsSegmentation (renameWords rename text) others ∧
      Piece.units others = renameUnits rename (units text) ∧
      Piece.literals others = Piece.literals pieces := by
  obtain ⟨others, hStand, hUnits, hLiterals, -⟩ := exists_renamed_pieces hKeeps h.stand rfl
  rw [← h.units_eq] at hUnits
  refine ⟨others, ⟨?_, hStand⟩, hUnits, hLiterals⟩
  rw [← Piece.map_fst_units, hUnits]
  rfl

/-- Reading a text with its words renamed gives what is read of the text, with its words renamed. -/
theorem units_renameWords (hKeeps : KeepsReading rename) (text : Text) :
    units (renameWords rename text) = renameUnits rename (units text) := by
  obtain ⟨pieces, hPieces⟩ := exists_isSegmentation text
  obtain ⟨others, hOthers, hUnits, -⟩ := hPieces.exists_renamed hKeeps
  rw [hOthers.units_eq, hUnits]

end Rename

/-! ## Replacing a name by another -/

section Replace

variable {old new : Text}

theorem keepsReading_renamedName (hOld : IsPlainWord old) (hOldRaw : old ≠ ['r'])
    (hNew : IsPlainWord new) (hNewRaw : new ≠ ['r']) : KeepsReading (renamedName old new) where
  single c hc := by
    refine if_neg fun hEq => hOld.not_mem_of_isWord hc ?_
    rw [← hEq]
    exact List.mem_singleton_self c
  word word hSome hWord := by
    unfold renamedName
    split
    · exact ⟨hNew.ne_nil, hNew.isWord⟩
    · exact ⟨hSome, hWord⟩
  behind word _ _ behind := by
    unfold renamedName
    split
    · rename_i hEq
      rw [hEq, hNew.behind_after hNewRaw, hOld.behind_after hOldRaw]
    · rfl

theorem renameRun_renamedName (run : List (Char × Region)) :
    renameRun (renamedName old new) run =
      if run.map Prod.fst = old ∧ ∀ unit ∈ run, unit.2 = .code then new.map (·, .code)
      else run := by
  split
  · rename_i h
    rw [renameRun, if_pos (by simpa using h.2), renamedName, if_pos h.1]
  · rename_i h
    by_cases hEq : run.map Prod.fst = old
    · exact if_neg fun hCode => h ⟨hEq, by simpa using hCode⟩
    · exact renameRun_eq_self (if_neg hEq)

/-- Replacing a name by another replaces the words of code that are the name, and nothing else:
all other characters are the same, and are read as the same.  So the comments and strings of the
new text are those of the old one, in the same order. -/
theorem renameWord_exact (hOld : IsPlainWord old) (hOldRaw : old ≠ ['r'])
    (hNew : IsPlainWord new) (hNewRaw : new ≠ ['r']) (text : Text) :
    units (renameWord old new text) = ((wordRuns (units text)).flatMap fun run =>
        if run.map Prod.fst = old ∧ ∀ unit ∈ run, unit.2 = .code then new.map (·, .code)
        else run) ∧
      ∃ pieces others, IsSegmentation text pieces ∧
        IsSegmentation (renameWord old new text) others ∧
        Piece.literals others = Piece.literals pieces := by
  have hKeeps := keepsReading_renamedName hOld hOldRaw hNew hNewRaw
  rw [renameWord_eq_renameWords hOld]
  refine ⟨?_, ?_⟩
  · rw [units_renameWords hKeeps, renameUnits]
    exact congrArg (List.flatMap · _) (funext renameRun_renamedName)
  · obtain ⟨pieces, hPieces⟩ := exists_isSegmentation text
    obtain ⟨others, hOthers, -, hLiterals⟩ := hPieces.exists_renamed hKeeps
    exact ⟨pieces, others, hPieces, hOthers, hLiterals⟩

/-- A name that stands in code, in a raw string, in a comment and within longer words. -/
theorem renameWord_exact_key :
    ∃ old new text, old = "Key".toList ∧ new = "XdrKey".toList ∧
      text = "Key k = r'Key' + Keys; // Key\n$Key".toList ∧
      renameWord old new text = "XdrKey k = r'Key' + Keys; // Key\n$XdrKey".toList ∧
      units (renameWord old new text) = ((wordRuns (units text)).flatMap fun run =>
        if run.map Prod.fst = old ∧ ∀ unit ∈ run, unit.2 = .code then new.map (·, .code)
        else run) ∧
      ∃ pieces others, IsSegmentation text pieces ∧
        IsSegmentation (renameWord old new text) others ∧
        Piece.literals others = Piece.literals pieces := by
  refine ⟨_, _, _, rfl, rfl, rfl, ?_⟩
  rw [String.toList_ofList, String.toList_ofList, String.toList_ofList, String.toList_ofList]
  exact ⟨by decide +kernel,
    renameWord_exact (by decide) (by decide) (by decide) (by decide) _⟩

end Replace

end XdrBindings.Code
