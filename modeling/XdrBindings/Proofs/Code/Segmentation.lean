import XdrBindings.Proofs.Code.Reading

/-!
# The pieces that a text is made of

What is code in a text can be said without a reader.  A text is cut from left to right
into pieces: line comments, block comments, strings, and single characters of code.
The cut depends on nothing but the characters: how a piece may look is said by `Stands`,
and inside of comments and strings by `CommentInside` and `StringInside`.

A block comment is described by its structure, comments within comments, and not by a
number of comments that are open.  The number only enters in `regionsFrom_commentInside`,
where any number may be open around the part that is read.

## Main results

* `IsSegmentation.unique`, `exists_isSegmentation` — every text has one segmentation.
* `regions_eq_of_isSegmentation` — the reader gives each character the region of its
  piece.
* `codeUnits_eq_segmentation` — the reader reports the code of the segmentation.
-/

namespace XdrBindings.Code

/-- A part of a text that is one thing. -/
structure Piece where
  region : Region
  text : Text

namespace Piece

/-- The text that pieces make up. -/
def joined (pieces : List Piece) : Text := pieces.flatMap Piece.text

/-- The region of every character of the text that pieces make up. -/
def regions (pieces : List Piece) : List Region :=
  pieces.flatMap fun piece => List.replicate piece.text.length piece.region

/-- The characters of the pieces that are code, where the first piece begins at
`position`. -/
def codeFrom : (position : Nat) → List Piece → List (Nat × Char)
  | _, [] => []
  | position, piece :: rest =>
    (if piece.region = .code then
        (List.range' position piece.text.length).zip piece.text else []) ++
      codeFrom (position + piece.text.length) rest

@[simp] theorem joined_cons (piece : Piece) (rest : List Piece) :
    joined (piece :: rest) = piece.text ++ joined rest := rfl

@[simp] theorem regions_cons (piece : Piece) (rest : List Piece) :
    regions (piece :: rest) =
      List.replicate piece.text.length piece.region ++ regions rest := rfl

end Piece

/-! ## Inside of comments and strings -/

/-- `CommentInside inner rest` says that `inner` reaches from behind the opening of a
block comment up to the closing that matches it, at the beginning of `rest`, or up to the
end of the text. -/
inductive CommentInside : (inner rest : Text) → Prop
  | stop {rest : Text} (hStop : rest = [] ∨ ['*', '/'] <+: rest) : CommentInside [] rest
  | char {c : Char} {inner rest : Text} (hClose : ¬['*', '/'] <+: c :: (inner ++ rest))
      (hOpen : ¬['/', '*'] <+: c :: (inner ++ rest)) (hInside : CommentInside inner rest) :
      CommentInside (c :: inner) rest
  | nested {inner outer rest : Text}
      (hInner : CommentInside inner ('*' :: '/' :: (outer ++ rest)))
      (hOuter : CommentInside outer rest) :
      CommentInside ('/' :: '*' :: (inner ++ '*' :: '/' :: outer)) rest
  | nestedOpen {inner : Text} (hInner : CommentInside inner []) :
      CommentInside ('/' :: '*' :: inner) []

/-- The quotes that open and close a string. -/
def Quote.delimiter (quote : Quote) (triple : Bool) : Text :=
  if triple then [quote.char, quote.char, quote.char] else [quote.char]

/-- Whether a string ends at the beginning of `ahead`: with the text, with its closing
quotes, or in front of a newline. -/
def StringStops (quote : Quote) (triple : Bool) (ahead : Text) : Prop :=
  ahead = [] ∨ quote.delimiter triple <+: ahead ∨ triple = false ∧ ahead.head? = some '\n'

/-- `StringInside quote triple raw inner rest` says that `inner` reaches from behind the
opening of a string up to where it ends, at the beginning of `rest`.  A backslash takes
the next character with it unless the string is raw. -/
inductive StringInside (quote : Quote) (triple raw : Bool) : (inner rest : Text) → Prop
  | stop {rest : Text} (hStop : StringStops quote triple rest) :
      StringInside quote triple raw [] rest
  | escape {c : Char} {inner rest : Text} (hRaw : raw = false)
      (hInside : StringInside quote triple raw inner rest) :
      StringInside quote triple raw ('\\' :: c :: inner) rest
  | cutEscape (hRaw : raw = false) : StringInside quote triple raw ['\\'] []
  | plain {c : Char} {inner rest : Text} (hEscape : c = '\\' → raw = true)
      (hGoes : ¬StringStops quote triple (c :: (inner ++ rest)))
      (hInside : StringInside quote triple raw inner rest) :
      StringInside quote triple raw (c :: inner) rest

/-! ## Pieces -/

/-- `Stands before piece rest` says that the piece is what a text begins with when
`before` stands behind it and `rest` follows. -/
inductive Stands (before : Text) : Piece → (rest : Text) → Prop
  | lineComment {body rest : Text} (hBody : '\n' ∉ body)
      (hRest : rest = [] ∨ rest.head? = some '\n') :
      Stands before ⟨.lineComment, '/' :: '/' :: body⟩ rest
  | blockComment {inner rest : Text} (hInside : CommentInside inner ('*' :: '/' :: rest)) :
      Stands before ⟨.blockComment, '/' :: '*' :: (inner ++ ['*', '/'])⟩ rest
  | openComment {inner : Text} (hInside : CommentInside inner []) :
      Stands before ⟨.blockComment, '/' :: '*' :: inner⟩ []
  | string {quote : Quote} {triple raw : Bool} {inner rest : Text}
      (hTriple : triple = true ↔ quote.delimiter true <+:
        quote.delimiter triple ++ (inner ++ (quote.delimiter triple ++ rest)))
      (hRaw : raw = true ↔ EndsRaw before)
      (hInside : StringInside quote triple raw inner (quote.delimiter triple ++ rest)) :
      Stands before
        ⟨quote.region, quote.delimiter triple ++ (inner ++ quote.delimiter triple)⟩ rest
  | openString {quote : Quote} {triple raw : Bool} {inner rest : Text}
      (hTriple : triple = true ↔ quote.delimiter true <+:
        quote.delimiter triple ++ (inner ++ rest))
      (hRaw : raw = true ↔ EndsRaw before)
      (hInside : StringInside quote triple raw inner rest)
      (hOpen : rest = [] ∨ triple = false ∧ rest.head? = some '\n') :
      Stands before ⟨quote.region, quote.delimiter triple ++ inner⟩ rest
  | code {c : Char} {rest : Text} (hSlash : ¬['/', '/'] <+: c :: rest)
      (hStar : ¬['/', '*'] <+: c :: rest) (hQuote : ∀ quote : Quote, c ≠ quote.char) :
      Stands before ⟨.code, [c]⟩ rest

/-- Whether every piece stands where it is, `before` standing behind the first one. -/
inductive AllStand : (before : Text) → List Piece → Prop
  | nil {before : Text} : AllStand before []
  | cons {before : Text} {piece : Piece} {rest : List Piece}
      (hPiece : Stands before piece (Piece.joined rest))
      (hRest : AllStand (before ++ piece.text) rest) : AllStand before (piece :: rest)

/-- The pieces that a text is cut into from left to right. -/
structure IsSegmentation (text : Text) (pieces : List Piece) : Prop where
  joined : Piece.joined pieces = text
  stand : AllStand [] pieces

/-! ## The reader inside of comments and strings -/

theorem pair_isPrefix_cons {first second c : Char} {rest : Text} :
    [first, second] <+: c :: rest ↔ c = first ∧ rest.head? = some second := by
  cases rest <;> simp [List.cons_prefix_cons, eq_comm]

theorem triple_isPrefix_cons {quote : Quote} {c : Char} {rest : Text} :
    quote.delimiter true <+: c :: rest ↔ c = quote.char ∧ quote.isTwiceAt rest = true := by
  rw [Quote.delimiter, if_pos rfl, List.cons_prefix_cons, Quote.isTwiceAt, Text.startsWith,
    List.isPrefixOf_iff_prefix]
  exact and_congr_left' eq_comm

theorem CommentInside.stops {inner rest : Text} (h : CommentInside inner rest) :
    rest = [] ∨ ['*', '/'] <+: rest := by
  induction h with
  | stop hStop => exact hStop
  | char _ _ _ ih => exact ih
  | nested _ _ _ ih => exact ih
  | nestedOpen _ _ => exact .inl rfl

theorem regionsFrom_commentInside {inner rest : Text} (h : CommentInside inner rest)
    (behind : Behind) (depth : Nat) :
    (Reader.inMode behind (.blockComment (depth + 1))).regionsFrom (inner ++ rest) =
      List.replicate inner.length .blockComment ++
        (Reader.inMode (behind.after inner) (.blockComment (depth + 1))).regionsFrom rest := by
  induction h generalizing behind depth with
  | stop _ => rfl
  | @char c inner rest hClose hOpen _ ih =>
    have hRead : Mode.read behind c (inner ++ rest) (.blockComment (depth + 1)) =
        (.blockComment (depth + 1), 0, .blockComment) := by
      rw [pair_isPrefix_cons] at hClose hOpen
      simp only [Mode.read, hClose, hOpen, if_false]
    rw [List.cons_append, Reader.regionsFrom_read hRead]
    simp [ih, List.replicate_succ]
  | @nested inner outer rest _ _ ihInner ihOuter =>
    have hOpen : Mode.read behind '/' ('*' :: (inner ++ '*' :: '/' :: (outer ++ rest)))
        (.blockComment (depth + 1)) = (.blockComment (depth + 2), 1, .blockComment) := rfl
    have hClose (behind : Behind) : Mode.read behind '*' ('/' :: (outer ++ rest))
        (.blockComment (depth + 2)) = (.blockComment (depth + 1), 1, .blockComment) := rfl
    have hText : '/' :: '*' :: (inner ++ '*' :: '/' :: outer) ++ rest =
        '/' :: '*' :: (inner ++ '*' :: '/' :: (outer ++ rest)) := by simp
    rw [hText, Reader.regionsFrom_read hOpen]
    simp only [List.take_succ_cons, List.take_zero, List.drop_succ_cons, List.drop_zero]
    rw [ihInner, Reader.regionsFrom_read (hClose _)]
    simp only [List.take_succ_cons, List.take_zero, List.drop_succ_cons, List.drop_zero]
    rw [ihOuter]
    simp [List.replicate_succ, Behind.after_append, ← List.replicate_append_replicate]
  | @nestedOpen inner _ ih =>
    have hOpen : Mode.read behind '/' ('*' :: inner) (.blockComment (depth + 1)) =
        (.blockComment (depth + 2), 1, .blockComment) := rfl
    have hInner := ih ((behind.step '/').after ['*']) (depth + 1)
    rw [List.append_nil] at hInner ⊢
    rw [Reader.regionsFrom_read hOpen]
    simp only [List.take_succ_cons, List.take_zero, List.drop_succ_cons, List.drop_zero]
    rw [hInner]
    simp [List.replicate_succ, Reader.regionsFrom]

theorem StringInside.stops {quote : Quote} {triple raw : Bool} {inner rest : Text}
    (h : StringInside quote triple raw inner rest) : StringStops quote triple rest := by
  induction h with
  | stop hStop => exact hStop
  | escape _ _ ih => exact ih
  | cutEscape _ => exact .inl rfl
  | plain _ _ _ ih => exact ih

theorem read_string_of_not_stops {quote : Quote} {triple raw : Bool} {c : Char} {rest : Text}
    (behind : Behind) (hEscape : c = '\\' → raw = true)
    (hGoes : ¬StringStops quote triple (c :: rest)) :
    Mode.read behind c rest (.string quote triple raw) =
      (.string quote triple raw, 0, quote.region) := by
  obtain ⟨hQuote, hLine⟩ : ¬quote.delimiter triple <+: c :: rest ∧ (triple = false → c ≠ '\n') := by
    simpa [StringStops] using hGoes
  have hTwice : c = quote.char → triple = true ∧ quote.isTwiceAt rest = false := by
    intro hc
    cases triple with
    | false => simp [Quote.delimiter, hc] at hQuote
    | true =>
      rw [triple_isPrefix_cons] at hQuote
      exact ⟨rfl, by simpa [hc] using hQuote⟩
  simp only [Mode.read]
  rw [if_neg (by grind)]
  by_cases hc : c = quote.char
  · simp [hc, (hTwice hc).1, (hTwice hc).2]
  · rw [if_neg hc, if_neg (by grind)]

theorem regionsFrom_stringInside {quote : Quote} {triple raw : Bool} {inner rest : Text}
    (h : StringInside quote triple raw inner rest) (behind : Behind) :
    (Reader.inMode behind (.string quote triple raw)).regionsFrom (inner ++ rest) =
      List.replicate inner.length quote.region ++
        (Reader.inMode (behind.after inner) (.string quote triple raw)).regionsFrom rest := by
  induction h generalizing behind with
  | stop _ => rfl
  | @escape c inner rest hRaw _ ih =>
    have hRead : Mode.read behind '\\' (c :: (inner ++ rest)) (.string quote triple raw) =
        (.string quote triple raw, 1, quote.region) := by simp [Mode.read, hRaw]
    rw [List.cons_append, List.cons_append, Reader.regionsFrom_read hRead]
    simp [ih, List.replicate_succ]
  | cutEscape hRaw =>
    have hRead : Mode.read behind '\\' [] (.string quote triple raw) =
        (.string quote triple raw, 1, quote.region) := by simp [Mode.read, hRaw]
    rw [List.append_nil, Reader.regionsFrom_read hRead]
    simp [Reader.regionsFrom]
  | @plain c inner rest hEscape hGoes _ ih =>
    have hRead := read_string_of_not_stops behind hEscape hGoes
    rw [List.cons_append, Reader.regionsFrom_read hRead]
    simp [ih, List.replicate_succ]

/-! ## The reader on a piece -/

theorem regionsFrom_lineBody {body : Text} (hBody : '\n' ∉ body) (rest : Text)
    (behind : Behind) :
    (Reader.inMode behind .lineComment).regionsFrom (body ++ rest) =
      List.replicate body.length .lineComment ++
        (Reader.inMode (behind.after body) .lineComment).regionsFrom rest := by
  induction body generalizing behind with
  | nil => rfl
  | cons c body ih =>
    simp only [List.mem_cons, not_or] at hBody
    have hRead : Mode.read behind c (body ++ rest) .lineComment =
        (.lineComment, 0, .lineComment) := by
      simp only [Mode.read, if_neg (Ne.symm hBody.1)]
    rw [List.cons_append, Reader.regionsFrom_read hRead]
    simp [ih hBody.2, List.replicate_succ]

/-- What a newline ends is over in front of it, and nothing is over behind a text. -/
theorem regionsFrom_lineEnd {rest : Text} {mode : Mode} (behind : Behind)
    (hMode : mode = .lineComment ∨ ∃ quote raw, mode = .string quote false raw)
    (hRest : rest = [] ∨ rest.head? = some '\n') :
    (Reader.inMode behind mode).regionsFrom rest =
      (Reader.inMode behind .code).regionsFrom rest := by
  rcases hRest with rfl | hLine
  · rfl
  · obtain ⟨tail, rfl⟩ : ∃ tail, rest = '\n' :: tail := by
      cases rest with
      | nil => cases hLine
      | cons c tail => exact ⟨tail, by rw [Option.some.inj hLine]⟩
    have hCode : Mode.read behind '\n' tail .code = (.code, 0, .code) := by
      simp [Mode.read, Quote.ofChar?, Quote.char]
    have hRead : Mode.read behind '\n' tail mode = (.code, 0, .code) := by
      rcases hMode with rfl | ⟨quote, raw, rfl⟩
      · rfl
      · cases quote <;> simp [Mode.read, Quote.char]
    rw [Reader.regionsFrom_read hRead, Reader.regionsFrom_read hCode]

theorem regionsFrom_opening {quote : Quote} {triple : Bool} {ahead : Text} (behind : Behind)
    (hTriple : triple = true ↔ quote.delimiter true <+: quote.delimiter triple ++ ahead) :
    (Reader.inMode behind .code).regionsFrom (quote.delimiter triple ++ ahead) =
      List.replicate (quote.delimiter triple).length quote.region ++
        (Reader.inMode (behind.after (quote.delimiter triple))
          (.string quote triple behind.raw)).regionsFrom ahead := by
  have hRead (rest : Text) : Mode.read behind quote.char rest .code =
      (.string quote (quote.isTwiceAt rest) behind.raw,
        if quote.isTwiceAt rest then 2 else 0, quote.region) := by
    cases quote <;> rfl
  cases triple with
  | false =>
    have hTwice : quote.isTwiceAt ahead = false := by
      have hPrefix := mt hTriple.mpr Bool.false_ne_true
      change ¬quote.delimiter true <+: quote.char :: ahead at hPrefix
      rw [triple_isPrefix_cons] at hPrefix
      simpa using hPrefix
    have hFirst := hRead ahead
    rw [hTwice] at hFirst
    change (Reader.inMode behind .code).regionsFrom (quote.char :: ahead) = _
    rw [Reader.regionsFrom_read hFirst]
    simp [Quote.delimiter]
  | true =>
    have hTwice : quote.isTwiceAt (quote.char :: quote.char :: ahead) = true := by
      simp [Quote.isTwiceAt, Text.startsWith]
    have hFirst := hRead (quote.char :: quote.char :: ahead)
    rw [hTwice] at hFirst
    change (Reader.inMode behind .code).regionsFrom
      (quote.char :: quote.char :: quote.char :: ahead) = _
    rw [Reader.regionsFrom_read hFirst]
    simp [Quote.delimiter]

theorem regionsFrom_closing (quote : Quote) (triple raw : Bool) (rest : Text)
    (behind : Behind) :
    (Reader.inMode behind (.string quote triple raw)).regionsFrom
        (quote.delimiter triple ++ rest) =
      List.replicate (quote.delimiter triple).length quote.region ++
        (Reader.inMode (behind.after (quote.delimiter triple)) .code).regionsFrom rest := by
  have hChar : quote.char ≠ '\\' := by cases quote <;> decide
  cases triple with
  | false =>
    have hRead : Mode.read behind quote.char rest (.string quote false raw) =
        (.code, 0, quote.region) := by simp [Mode.read, hChar]
    change (Reader.inMode behind _).regionsFrom (quote.char :: rest) = _
    rw [Reader.regionsFrom_read hRead]
    simp [Quote.delimiter]
  | true =>
    have hRead : Mode.read behind quote.char (quote.char :: quote.char :: rest)
        (.string quote true raw) = (.code, 2, quote.region) := by
      simp [Mode.read, hChar, Quote.isTwiceAt, Text.startsWith]
    change (Reader.inMode behind _).regionsFrom
      (quote.char :: quote.char :: quote.char :: rest) = _
    rw [Reader.regionsFrom_read hRead]
    simp [Quote.delimiter]

theorem regionsFrom_stands {before rest : Text} {piece : Piece}
    (h : Stands before piece rest) :
    (Reader.inMode (Behind.ofText before) .code).regionsFrom (piece.text ++ rest) =
      List.replicate piece.text.length piece.region ++
        (Reader.inMode (Behind.ofText (before ++ piece.text)) .code).regionsFrom rest := by
  have hRaw {raw : Bool} (hIff : raw = true ↔ EndsRaw before) :
      (Behind.ofText before).raw = raw :=
    Bool.eq_iff_iff.mpr ((Behind.raw_ofText before).trans hIff.symm)
  rw [Behind.ofText_append]
  generalize Behind.ofText before = behind at hRaw ⊢
  cases h with
  | @lineComment body _ hBody hRest =>
    have hRead : Mode.read behind '/' ('/' :: (body ++ rest)) .code =
        (.lineComment, 1, .lineComment) := rfl
    dsimp only
    rw [List.cons_append, List.cons_append, Reader.regionsFrom_read hRead]
    simp only [List.take_succ_cons, List.take_zero, List.drop_succ_cons, List.drop_zero]
    rw [regionsFrom_lineBody hBody, regionsFrom_lineEnd _ (.inl rfl) hRest]
    simp [List.replicate_succ]
  | @blockComment inner _ hInside =>
    have hOpen : Mode.read behind '/' ('*' :: (inner ++ '*' :: '/' :: rest)) .code =
        (.blockComment 1, 1, .blockComment) := rfl
    have hClose (behind : Behind) : Mode.read behind '*' ('/' :: rest) (.blockComment (0 + 1)) =
        (.code, 1, .blockComment) := rfl
    have hText : '/' :: '*' :: (inner ++ ['*', '/']) ++ rest =
        '/' :: '*' :: (inner ++ '*' :: '/' :: rest) := by simp
    dsimp only
    rw [hText, Reader.regionsFrom_read hOpen]
    simp only [List.take_succ_cons, List.take_zero, List.drop_succ_cons, List.drop_zero]
    rw [regionsFrom_commentInside hInside _ 0, Reader.regionsFrom_read (hClose _)]
    simp only [List.length_cons, List.length_append, List.length_nil, List.take_succ_cons,
      List.take_zero, List.drop_succ_cons, List.drop_zero, Behind.after_append,
      Behind.after_cons, Behind.after_nil, ← List.append_assoc,
      List.replicate_append_replicate]
    rw [Nat.add_comm (0 + 1 + 1) (inner.length + (0 + 1 + 1))]
  | @openComment inner hInside =>
    have hOpen : Mode.read behind '/' ('*' :: inner) .code =
        (.blockComment 1, 1, .blockComment) := rfl
    have hInner := regionsFrom_commentInside hInside ((behind.step '/').step '*') 0
    rw [List.append_nil] at hInner ⊢
    rw [Reader.regionsFrom_read hOpen]
    simp only [List.take_succ_cons, List.take_zero, List.drop_succ_cons, List.drop_zero]
    rw [Behind.after_cons, Behind.after_nil, hInner]
    simp [List.replicate_succ, Reader.regionsFrom]
  | @string quote triple raw inner _ hTriple hIff hInside =>
    dsimp only
    rw [List.append_assoc, List.append_assoc, regionsFrom_opening behind hTriple, hRaw hIff,
      regionsFrom_stringInside hInside, regionsFrom_closing]
    simp [Behind.after_append, ← List.replicate_append_replicate]
  | @openString quote triple raw inner _ hTriple hIff hInside hOpen =>
    have hEnd (behind : Behind) :
        (Reader.inMode behind (.string quote triple raw)).regionsFrom rest =
          (Reader.inMode behind .code).regionsFrom rest := by
      rcases hOpen with rfl | ⟨rfl, hLine⟩
      · rfl
      · exact regionsFrom_lineEnd behind (.inr ⟨quote, raw, rfl⟩) (.inr hLine)
    dsimp only
    rw [List.append_assoc, regionsFrom_opening behind hTriple, hRaw hIff,
      regionsFrom_stringInside hInside, hEnd]
    simp [Behind.after_append, ← List.replicate_append_replicate]
  | @code c _ hSlash hStar hQuote =>
    have hRead : Mode.read behind c rest .code = (.code, 0, .code) := by
      rw [pair_isPrefix_cons] at hSlash hStar
      have hNone : Quote.ofChar? c = none := by
        simp [Quote.ofChar?, hQuote .single, hQuote .double]
      simp only [Mode.read, hSlash, hStar, hNone, if_false]
    dsimp only
    rw [List.cons_append, List.nil_append, Reader.regionsFrom_read hRead]
    simp

theorem regionsFrom_allStand {before : Text} {pieces : List Piece} (h : AllStand before pieces) :
    (Reader.inMode (Behind.ofText before) .code).regionsFrom (Piece.joined pieces) =
      Piece.regions pieces := by
  induction h with
  | nil => rfl
  | cons hPiece _ ih => rw [Piece.joined_cons, regionsFrom_stands hPiece, ih, Piece.regions_cons]

/-- The reader gives each character the region of the piece that it is part of. -/
theorem regions_eq_of_isSegmentation {text : Text} {pieces : List Piece}
    (h : IsSegmentation text pieces) : regions text = Piece.regions pieces := by
  rw [← h.joined]
  exact regionsFrom_allStand h.stand

/-! ## Every text has a segmentation -/

theorem exists_commentInside (text : Text) :
    ∃ inner rest, text = inner ++ rest ∧ CommentInside inner rest := by
  induction hLength : text.length using Nat.strongRecOn generalizing text with
  | _ length ih =>
    subst hLength
    match text with
    | [] => exact ⟨[], [], rfl, .stop (.inl rfl)⟩
    | c :: tail =>
      by_cases hClose : ['*', '/'] <+: c :: tail
      · exact ⟨[], c :: tail, rfl, .stop (.inr hClose)⟩
      by_cases hOpen : ['/', '*'] <+: c :: tail
      · obtain ⟨behind, hBehind⟩ := hOpen
        have hLength : behind.length + 2 = (c :: tail).length := by simp [← hBehind]
        obtain ⟨inner, rest, hText, hInner⟩ := ih behind.length (by omega) behind rfl
        -- The nested comment ends with the text, or what is behind its closing is shorter.
        rcases hInner.stops with rfl | ⟨more, rfl⟩
        · refine ⟨'/' :: '*' :: inner, [], ?_, .nestedOpen hInner⟩
          rw [← hBehind, hText]
          simp
        · have hMore : inner.length + 2 + more.length = behind.length := by
            simp [hText, Nat.add_assoc, Nat.add_comm 2]
          obtain ⟨outer, rest, rfl, hOuter⟩ := ih more.length (by omega) more rfl
          refine ⟨'/' :: '*' :: (inner ++ '*' :: '/' :: outer), rest, ?_, .nested hInner hOuter⟩
          rw [← hBehind, hText]
          simp
      · obtain ⟨inner, rest, rfl, hInside⟩ := ih tail.length (by simp) tail rfl
        exact ⟨c :: inner, rest, rfl, .char hClose hOpen hInside⟩

theorem exists_stringInside (quote : Quote) (triple raw : Bool) (text : Text) :
    ∃ inner rest, text = inner ++ rest ∧ StringInside quote triple raw inner rest := by
  induction hLength : text.length using Nat.strongRecOn generalizing text with
  | _ length ih =>
    subst hLength
    by_cases hStop : StringStops quote triple text
    · exact ⟨[], text, rfl, .stop hStop⟩
    match text with
    | [] => exact absurd (.inl rfl) hStop
    | c :: tail =>
      by_cases hEscape : c = '\\' → raw = true
      · obtain ⟨inner, rest, rfl, hInside⟩ := ih tail.length (by simp) tail rfl
        exact ⟨c :: inner, rest, rfl, .plain hEscape hStop hInside⟩
      obtain ⟨rfl, hRaw⟩ : c = '\\' ∧ raw = false := by simpa using hEscape
      match tail with
      | [] => exact ⟨['\\'], [], rfl, .cutEscape hRaw⟩
      | d :: more =>
        have hShorter : more.length < ('\\' :: d :: more).length := by
          simp only [List.length_cons]
          omega
        obtain ⟨inner, rest, rfl, hInside⟩ := ih more.length hShorter more rfl
        exact ⟨'\\' :: d :: inner, rest, rfl, .escape hRaw hInside⟩

/-- How a string is opened at a quote, and what is behind its opening. -/
theorem exists_delimiter (quote : Quote) (rest : Text) :
    ∃ triple ahead, quote.char :: rest = quote.delimiter triple ++ ahead ∧
      (triple = true ↔ quote.delimiter true <+: quote.delimiter triple ++ ahead) := by
  by_cases hTriple : quote.delimiter true <+: quote.char :: rest
  · obtain ⟨ahead, hAhead⟩ := hTriple
    exact ⟨true, ahead, hAhead.symm, by simp⟩
  · exact ⟨false, rest, rfl, by simpa [Quote.delimiter] using hTriple⟩

theorem exists_stands (before : Text) (c : Char) (tail : Text) :
    ∃ piece rest, c :: tail = piece.text ++ rest ∧ piece.text ≠ [] ∧
      Stands before piece rest := by
  by_cases hSlash : ['/', '/'] <+: c :: tail
  · obtain ⟨line, hLine⟩ := hSlash
    refine ⟨⟨.lineComment, '/' :: '/' :: line.takeWhile (· != '\n')⟩,
      line.dropWhile (· != '\n'), ?_, by simp, .lineComment ?_ ?_⟩
    · rw [← hLine]
      simp
    · intro hMem
      simpa using List.all_eq_true.mp (List.all_takeWhile (l := line)) _ hMem
    · cases hRest : line.dropWhile (· != '\n') with
      | nil => exact .inl rfl
      | cons d more =>
        have hHead := List.head?_dropWhile_not (· != '\n') line
        rw [hRest] at hHead
        exact .inr (by simpa using hHead)
  by_cases hStar : ['/', '*'] <+: c :: tail
  · obtain ⟨ahead, hAhead⟩ := hStar
    obtain ⟨inner, rest, rfl, hInside⟩ := exists_commentInside ahead
    rcases hInside.stops with rfl | ⟨more, rfl⟩
    · exact ⟨_, [], by rw [← hAhead]; simp, by simp, .openComment hInside⟩
    · exact ⟨_, more, by rw [← hAhead]; simp, by simp, .blockComment hInside⟩
  by_cases hQuote : ∃ quote : Quote, c = quote.char
  · obtain ⟨quote, rfl⟩ := hQuote
    obtain ⟨triple, ahead, hText, hTriple⟩ := exists_delimiter quote tail
    obtain ⟨raw, hRaw⟩ : ∃ raw : Bool, raw = true ↔ EndsRaw before :=
      ⟨_, Behind.raw_ofText before⟩
    obtain ⟨inner, rest, rfl, hInside⟩ := exists_stringInside quote triple raw ahead
    have hNonempty : quote.delimiter triple ≠ [] := by cases triple <;> simp [Quote.delimiter]
    rw [hText]
    by_cases hOpen : rest = [] ∨ triple = false ∧ rest.head? = some '\n'
    · exact ⟨_, rest, by simp, by simp [hNonempty], .openString hTriple hRaw hInside hOpen⟩
    · obtain ⟨more, rfl⟩ : quote.delimiter triple <+: rest := by
        rcases hInside.stops with hNil | hClose | hLine
        · exact absurd (.inl hNil) hOpen
        · exact hClose
        · exact absurd (.inr hLine) hOpen
      exact ⟨_, more, by simp, by simp [hNonempty], .string hTriple hRaw hInside⟩
  · exact ⟨⟨.code, [c]⟩, tail, rfl, by simp, .code hSlash hStar fun quote h => hQuote ⟨quote, h⟩⟩

theorem exists_allStand (before ahead : Text) :
    ∃ pieces, Piece.joined pieces = ahead ∧ AllStand before pieces := by
  induction hLength : ahead.length using Nat.strongRecOn generalizing before ahead with
  | _ length ih =>
    subst hLength
    match ahead with
    | [] => exact ⟨[], rfl, .nil⟩
    | c :: tail =>
      obtain ⟨piece, rest, hText, hNonempty, hPiece⟩ := exists_stands before c tail
      have hShorter : rest.length < (c :: tail).length := by
        rw [hText, List.length_append]
        have hPos := List.length_pos_iff.mpr hNonempty
        omega
      obtain ⟨pieces, rfl, hRest⟩ := ih rest.length hShorter (before ++ piece.text) rest rfl
      exact ⟨piece :: pieces, by simp [hText], .cons hPiece hRest⟩

theorem exists_isSegmentation (text : Text) : ∃ pieces, IsSegmentation text pieces := by
  obtain ⟨pieces, hJoined, hStand⟩ := exists_allStand [] text
  exact ⟨pieces, hJoined, hStand⟩

/-! ## There is no other segmentation -/

/-- Inside of a comment, what begins with an opening is a comment within the comment, which is
closed or goes on to the end of the text. -/
theorem CommentInside.of_opening {ahead inner rest : Text} (h : CommentInside inner rest)
    (hText : '/' :: '*' :: ahead = inner ++ rest) :
    (∃ first outer, inner = '/' :: '*' :: (first ++ '*' :: '/' :: outer) ∧
        CommentInside first ('*' :: '/' :: (outer ++ rest)) ∧ CommentInside outer rest) ∨
      ∃ first, inner = '/' :: '*' :: first ∧ rest = [] ∧ CommentInside first [] := by
  cases h with
  | stop hStop =>
    rw [List.nil_append] at hText
    rw [← hText] at hStop
    simp at hStop
  | char _ hOpen _ =>
    rw [← List.cons_append, ← hText] at hOpen
    simp at hOpen
  | nested hInner hOuter => exact .inl ⟨_, _, rfl, hInner, hOuter⟩
  | nestedOpen hInner => exact .inr ⟨_, rfl, rfl, hInner⟩

theorem CommentInside.unique {inner rest other otherRest : Text}
    (h : CommentInside inner rest) (hOther : CommentInside other otherRest)
    (hText : inner ++ rest = other ++ otherRest) : inner = other := by
  have hNested {more : Text} : ¬('/' :: '*' :: more = [] ∨ ['*', '/'] <+: '/' :: '*' :: more) := by
    simp
  induction h generalizing other otherRest with
  | @stop rest hStop =>
    rw [List.nil_append] at hText
    rw [hText] at hStop
    cases hOther with
    | stop _ => rfl
    | char hClose _ _ => exact absurd (hStop.resolve_left (List.cons_ne_nil _ _)) hClose
    | nested _ _ => exact absurd hStop hNested
    | nestedOpen _ => exact absurd hStop hNested
  | @char c inner rest hClose hOpen _ ih =>
    rw [List.cons_append] at hText
    rw [hText] at hClose hOpen
    cases hOther with
    | stop hStop =>
      rw [List.nil_append] at hText hClose
      exact absurd (hStop.resolve_left (hText ▸ List.cons_ne_nil _ _)) hClose
    | char _ _ hInside =>
      obtain ⟨rfl, hTail⟩ := List.cons.inj hText
      rw [ih hInside hTail]
    | nested _ _ => simp at hOpen
    | nestedOpen _ => simp at hOpen
  | @nested inner outer rest _ _ ihInner ihOuter =>
    simp only [List.cons_append, List.append_assoc] at hText
    obtain ⟨first, more, rfl, hInner, hOuter⟩ | ⟨first, rfl, rfl, hInner⟩ :=
      hOther.of_opening hText
    · simp only [List.cons_append, List.append_assoc, List.cons.injEq, true_and] at hText
      obtain rfl := ihInner hInner hText
      rw [ihOuter hOuter (by simpa using List.append_cancel_left hText)]
    · simp only [List.append_nil, List.cons.injEq, true_and] at hText
      obtain rfl := ihInner hInner (by rw [hText, List.append_nil])
      simp at hText
  | @nestedOpen inner _ ih =>
    rw [List.append_nil] at hText
    obtain ⟨first, more, rfl, hInner, -⟩ | ⟨first, rfl, rfl, -⟩ := hOther.of_opening hText
    · simp only [List.cons_append, List.append_assoc, List.cons.injEq, true_and] at hText
      obtain rfl := ih hInner (by rw [hText, List.append_nil])
      simp at hText
    · rw [hText, List.append_nil]

theorem StringInside.unique {quote : Quote} {triple raw : Bool}
    {inner rest other otherRest : Text} (h : StringInside quote triple raw inner rest)
    (hOther : StringInside quote triple raw other otherRest)
    (hText : inner ++ rest = other ++ otherRest) : inner = other := by
  have hSlash {more : Text} : ¬StringStops quote triple ('\\' :: more) := by
    cases quote <;> cases triple <;>
      simp [StringStops, Quote.delimiter, Quote.char, List.cons_prefix_cons]
  induction h generalizing other otherRest with
  | @stop rest hStop =>
    rw [List.nil_append] at hText
    rw [hText] at hStop
    cases hOther with
    | stop _ => rfl
    | escape _ _ => exact absurd hStop hSlash
    | cutEscape _ => exact absurd hStop hSlash
    | plain _ hGoes _ => exact absurd hStop hGoes
  | @escape c inner rest hRaw _ ih =>
    simp only [List.cons_append] at hText
    cases hOther with
    | stop hStop =>
      rw [List.nil_append] at hText
      exact absurd (hText ▸ hStop) hSlash
    | escape _ hInside =>
      obtain ⟨-, hText⟩ := List.cons.inj hText
      obtain ⟨rfl, hTail⟩ := List.cons.inj hText
      rw [ih hInside hTail]
    | cutEscape _ => simp at hText
    | plain hEscape _ _ =>
      obtain ⟨rfl, -⟩ := List.cons.inj hText
      simp [hRaw] at hEscape
  | cutEscape hRaw =>
    rw [List.append_nil] at hText
    cases hOther with
    | stop hStop =>
      rw [List.nil_append] at hText
      exact absurd (hText ▸ hStop) hSlash
    | escape _ _ => simp at hText
    | cutEscape _ => rfl
    | plain hEscape _ _ =>
      obtain ⟨rfl, -⟩ := List.cons.inj hText
      simp [hRaw] at hEscape
  | @plain c inner rest hEscape hGoes _ ih =>
    rw [List.cons_append] at hText
    cases hOther with
    | stop hStop =>
      rw [List.nil_append] at hText
      exact absurd (hText ▸ hStop) hGoes
    | escape hRaw _ =>
      obtain ⟨rfl, -⟩ := List.cons.inj hText
      simp [hRaw] at hEscape
    | cutEscape hRaw =>
      obtain ⟨rfl, -⟩ := List.cons.inj hText
      simp [hRaw] at hEscape
    | plain _ _ hInside =>
      obtain ⟨rfl, hTail⟩ := List.cons.inj hText
      rw [ih hInside hTail]

theorem Quote.delimiter_eq_cons (quote : Quote) (triple : Bool) :
    ∃ more, quote.delimiter triple = quote.char :: more := by
  cases triple <;> exact ⟨_, rfl⟩

theorem Quote.char_ne_slash (quote : Quote) : quote.char ≠ '/' := by cases quote <;> decide

theorem Quote.char_inj {quote other : Quote} (h : quote.char = other.char) : quote = other := by
  cases quote <;> cases other <;> first | rfl | exact absurd h (by decide)

/-- What stands at two slashes is the rest of the line. -/
theorem Stands.of_lineComment {before rest line : Text} {piece : Piece}
    (h : Stands before piece rest) (hText : piece.text ++ rest = '/' :: '/' :: line) :
    piece = ⟨.lineComment, '/' :: '/' :: line.takeWhile (· != '\n')⟩ := by
  cases h with
  | @lineComment body _ hBody hRest =>
    simp only [List.cons_append, List.cons.injEq, true_and] at hText
    have hRestHead : rest.takeWhile (· != '\n') = [] := by
      rcases hRest with rfl | hLine
      · rfl
      · cases rest with
        | nil => rfl
        | cons c tail => simp [Option.some.inj hLine]
    rw [← hText, List.takeWhile_append_of_pos (by grind), hRestHead, List.append_nil]
  | blockComment _ => simp at hText
  | openComment _ => simp at hText
  | @string quote triple _ _ _ _ _ _ =>
    obtain ⟨more, hMore⟩ := quote.delimiter_eq_cons triple
    simp [hMore, quote.char_ne_slash] at hText
  | @openString quote triple _ _ _ _ _ _ _ =>
    obtain ⟨more, hMore⟩ := quote.delimiter_eq_cons triple
    simp [hMore, quote.char_ne_slash] at hText
  | code hSlash _ _ =>
    change _ :: rest = _ at hText
    rw [hText] at hSlash
    simp at hSlash

/-- What stands at the opening of a block comment goes on through the closing. -/
theorem Stands.of_blockComment {before rest inner tail : Text} {piece : Piece}
    (h : Stands before piece rest) (hText : piece.text ++ rest = '/' :: '*' :: (inner ++ tail))
    (hInside : CommentInside inner tail) :
    piece = ⟨.blockComment, '/' :: '*' :: (inner ++ tail.take 2)⟩ := by
  cases h with
  | lineComment _ _ => simp at hText
  | @blockComment other _ hOther =>
    simp only [List.cons_append, List.append_assoc, List.nil_append, List.cons.injEq,
      true_and] at hText
    have hInner := hOther.unique hInside hText
    subst hInner
    rw [← List.append_cancel_left hText]
    rfl
  | @openComment other hOther =>
    simp only [List.append_nil, List.cons.injEq, true_and] at hText
    have hInner := hOther.unique hInside (by simpa using hText)
    subst hInner
    rw [List.self_eq_append_right.mp hText]
    simp
  | @string quote triple _ _ _ _ _ _ =>
    obtain ⟨more, hMore⟩ := quote.delimiter_eq_cons triple
    simp [hMore, quote.char_ne_slash] at hText
  | @openString quote triple _ _ _ _ _ _ _ =>
    obtain ⟨more, hMore⟩ := quote.delimiter_eq_cons triple
    simp [hMore, quote.char_ne_slash] at hText
  | code _ hStar _ =>
    change _ :: rest = _ at hText
    rw [hText] at hStar
    simp at hStar

/-- Which quotes open a string is told by the text that they stand at. -/
theorem Quote.opening_unique {quote other : Quote} {triple otherTriple : Bool} {inner tail : Text}
    (hTriple : triple = true ↔ quote.delimiter true <+: quote.delimiter triple ++ inner)
    (hOther : otherTriple = true ↔ other.delimiter true <+: other.delimiter otherTriple ++ tail)
    (hText : quote.delimiter triple ++ inner = other.delimiter otherTriple ++ tail) :
    quote = other ∧ triple = otherTriple ∧ inner = tail := by
  obtain ⟨more, hMore⟩ := quote.delimiter_eq_cons triple
  obtain ⟨otherMore, hOtherMore⟩ := other.delimiter_eq_cons otherTriple
  obtain rfl : quote = other := by
    rw [hMore, hOtherMore] at hText
    exact Quote.char_inj (List.cons.inj hText).1
  rw [hText] at hTriple
  obtain rfl : triple = otherTriple := Bool.eq_iff_iff.mpr (hTriple.trans hOther.symm)
  exact ⟨rfl, rfl, List.append_cancel_left hText⟩

/-- Where a string ends with its line or with the text, its closing quotes do not follow. -/
theorem Quote.not_delimiter_isPrefix {quote : Quote} {triple : Bool} {rest : Text}
    (h : rest = [] ∨ triple = false ∧ rest.head? = some '\n') :
    ¬quote.delimiter triple <+: rest := by
  obtain ⟨more, hMore⟩ := quote.delimiter_eq_cons triple
  rw [hMore]
  rcases h with rfl | ⟨-, hLine⟩
  · simp
  · obtain ⟨line, rfl⟩ := List.head?_eq_some_iff.mp hLine
    have hNe : quote.char ≠ '\n' := by cases quote <;> decide
    exact fun hPrefix => hNe (List.cons_prefix_cons.mp hPrefix).1

/-- What stands at a quote is the string up to where it stops. -/
theorem Stands.of_string {before rest inner tail : Text} {piece : Piece} {quote : Quote}
    {triple raw : Bool} (h : Stands before piece rest)
    (hText : piece.text ++ rest = quote.delimiter triple ++ (inner ++ tail))
    (hTriple : triple = true ↔ quote.delimiter true <+:
      quote.delimiter triple ++ (inner ++ tail))
    (hRaw : raw = true ↔ EndsRaw before) (hInside : StringInside quote triple raw inner tail) :
    piece = ⟨quote.region, quote.delimiter triple ++ (inner ++
      if quote.delimiter triple <+: tail then quote.delimiter triple else [])⟩ := by
  obtain ⟨more, hMore⟩ := quote.delimiter_eq_cons triple
  cases h with
  | lineComment _ _ => simp [hMore, quote.char_ne_slash.symm] at hText
  | blockComment _ => simp [hMore, quote.char_ne_slash.symm] at hText
  | openComment _ => simp [hMore, quote.char_ne_slash.symm] at hText
  | @string otherQuote otherTriple otherRaw other _ hOtherTriple hOtherRaw hOther =>
    simp only [List.append_assoc] at hText
    obtain ⟨rfl, rfl, hTail⟩ := Quote.opening_unique hOtherTriple hTriple hText
    obtain rfl : otherRaw = raw := Bool.eq_iff_iff.mpr (hOtherRaw.trans hRaw.symm)
    obtain rfl := hOther.unique hInside hTail
    rw [if_pos ⟨rest, List.append_cancel_left hTail⟩]
  | @openString otherQuote otherTriple otherRaw other _ hOtherTriple hOtherRaw hOther hOpen =>
    simp only [List.append_assoc] at hText
    obtain ⟨rfl, rfl, hTail⟩ := Quote.opening_unique hOtherTriple hTriple hText
    obtain rfl : otherRaw = raw := Bool.eq_iff_iff.mpr (hOtherRaw.trans hRaw.symm)
    obtain rfl := hOther.unique hInside hTail
    obtain rfl := List.append_cancel_left hTail
    rw [if_neg (Quote.not_delimiter_isPrefix hOpen), List.append_nil]
  | code _ _ hQuote =>
    rw [hMore] at hText
    exact absurd (List.cons.inj hText).1 (hQuote quote)

theorem Stands.unique {before rest otherRest : Text} {piece other : Piece}
    (h : Stands before piece rest) (hOther : Stands before other otherRest)
    (hText : piece.text ++ rest = other.text ++ otherRest) : piece = other := by
  cases h with
  | lineComment hBody hRest =>
    have hSelf := (Stands.lineComment hBody hRest : Stands before _ rest).of_lineComment rfl
    exact hSelf.trans (hOther.of_lineComment hText.symm).symm
  | blockComment hInside =>
    have hEq := hOther.of_blockComment (by simpa using hText.symm) hInside
    rw [hEq]
    rfl
  | openComment hInside =>
    have hEq := hOther.of_blockComment (by simpa using hText.symm) hInside
    simp [hEq]
  | string hTriple hRaw hInside =>
    have hEq := hOther.of_string (by simpa using hText.symm) hTriple hRaw hInside
    rw [hEq, if_pos (List.prefix_append _ _)]
  | openString hTriple hRaw hInside hOpen =>
    have hSelf := (Stands.openString hTriple hRaw hInside hOpen).of_string
      (by simp) hTriple hRaw hInside
    exact hSelf.trans
      (hOther.of_string (by simpa using hText.symm) hTriple hRaw hInside).symm
  | @code c _ hSlash hStar hQuote =>
    change c :: rest = _ at hText
    cases hOther with
    | lineComment _ _ => simp [hText] at hSlash
    | blockComment _ => simp [hText] at hStar
    | openComment _ => simp [hText] at hStar
    | @string quote triple _ _ _ _ _ _ =>
      obtain ⟨more, hMore⟩ := quote.delimiter_eq_cons triple
      rw [hMore] at hText
      exact absurd (List.cons.inj hText).1 (hQuote quote)
    | @openString quote triple _ _ _ _ _ _ _ =>
      obtain ⟨more, hMore⟩ := quote.delimiter_eq_cons triple
      rw [hMore] at hText
      exact absurd (List.cons.inj hText).1 (hQuote quote)
    | code _ _ _ => rw [(List.cons.inj hText).1]

theorem Stands.text_ne_nil {before rest : Text} {piece : Piece} (h : Stands before piece rest) :
    piece.text ≠ [] := by
  cases h with
  | @string quote triple _ _ _ _ _ _ =>
    obtain ⟨more, hMore⟩ := quote.delimiter_eq_cons triple
    simp [hMore]
  | @openString quote triple _ _ _ _ _ _ _ =>
    obtain ⟨more, hMore⟩ := quote.delimiter_eq_cons triple
    simp [hMore]
  | lineComment _ _ => simp
  | blockComment _ => simp
  | openComment _ => simp
  | code _ _ _ => simp

theorem AllStand.unique {before : Text} {pieces others : List Piece}
    (h : AllStand before pieces) (hOthers : AllStand before others)
    (hText : Piece.joined pieces = Piece.joined others) : pieces = others := by
  induction h generalizing others with
  | nil =>
    cases hOthers with
    | nil => rfl
    | cons hPiece _ => simp [Piece.joined, hPiece.text_ne_nil] at hText
  | cons hPiece _ ih =>
    cases hOthers with
    | nil => simp [Piece.joined, hPiece.text_ne_nil] at hText
    | cons hOther hRest =>
      obtain rfl := hPiece.unique hOther hText
      rw [ih hRest (List.append_cancel_left hText)]

theorem IsSegmentation.unique {text : Text} {pieces others : List Piece}
    (h : IsSegmentation text pieces) (hOthers : IsSegmentation text others) :
    pieces = others :=
  h.stand.unique hOthers.stand (h.joined.trans hOthers.joined.symm)

/-! ## The code of a text -/

/-- The characters of a text that begins at `position` whose region is code. -/
def codeOfRegions : (position : Nat) → List Region → Text → List (Nat × Char)
  | position, region :: regions, c :: rest =>
    if region = .code then (position, c) :: codeOfRegions (position + 1) regions rest
    else codeOfRegions (position + 1) regions rest
  | _, _, _ => []

theorem Reader.codeFrom_eq (reader : Reader) (position : Nat) (text : Text) :
    reader.codeFrom position text = codeOfRegions position (reader.regionsFrom text) text := by
  induction text generalizing reader position with
  | nil => rfl
  | cons c rest ih =>
    simp only [codeFrom, regionsFrom, codeOfRegions, ih]

theorem codeOfRegions_replicate (position : Nat) (region : Region) (front back : Text)
    (regions : List Region) :
    codeOfRegions position (List.replicate front.length region ++ regions) (front ++ back) =
      (if region = .code then (List.range' position front.length).zip front else []) ++
        codeOfRegions (position + front.length) regions back := by
  induction front generalizing position with
  | nil => simp
  | cons c rest ih =>
    simp only [List.length_cons, List.replicate_succ, List.cons_append, codeOfRegions, ih,
      List.range'_succ, List.zip_cons_cons, Nat.add_right_comm _ 1, Nat.add_assoc]
    split <;> rfl

theorem codeOfRegions_pieces (position : Nat) (pieces : List Piece) :
    codeOfRegions position (Piece.regions pieces) (Piece.joined pieces) =
      Piece.codeFrom position pieces := by
  induction pieces generalizing position with
  | nil => rfl
  | cons piece rest ih =>
    rw [Piece.regions_cons, Piece.joined_cons, codeOfRegions_replicate, ih, Piece.codeFrom]

/-- What the reader reports of a text is the code of its one segmentation, in ascending
order. -/
theorem codeUnits_eq_segmentation (text : Text) :
    ∃ pieces, (∀ others, IsSegmentation text others ↔ others = pieces) ∧
      codeUnits text = Piece.codeFrom 0 pieces ∧
      (codeUnits text).Pairwise fun first second => first.1 < second.1 := by
  obtain ⟨pieces, hPieces⟩ := exists_isSegmentation text
  refine ⟨pieces, fun others => ⟨fun h => h.unique hPieces, fun h => h ▸ hPieces⟩, ?_,
    Reader.codeFrom_ascending _ _ _⟩
  have hRegions := regions_eq_of_isSegmentation hPieces
  rw [← hPieces.joined] at hRegions ⊢
  calc
    codeUnits (Piece.joined pieces) =
        codeOfRegions 0 (regions (Piece.joined pieces)) (Piece.joined pieces) :=
      Reader.codeFrom_eq _ _ _
    _ = codeOfRegions 0 (Piece.regions pieces) (Piece.joined pieces) := by rw [hRegions]
    _ = Piece.codeFrom 0 pieces := codeOfRegions_pieces 0 pieces

end XdrBindings.Code
