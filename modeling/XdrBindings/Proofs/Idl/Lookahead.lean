import XdrBindings.Proofs.Idl.Heads

/-!
# The brace that the lookahead finds

A type written in place gets its name from behind its body, before the body is read.  The lookahead
counts braces and knows nothing of fields; the rules read fields, arms and further bodies at any
depth and count nothing.  Both stop at the same brace: all that a rule has read closes the braces
that it opens, so the brace that ends the items of a body is the one that the count comes out even
at.

`IsBalanced` says what counting finds of any tokens, and neither the lookahead nor the rules take
part in it.

## Main results

* `nameBehind_append`, `nameBehind_cases` — what the lookahead finds by counting.
* `Spans.trans`, `Spans.braces` — balanced tokens one behind the other and in braces.
* `field_spans` — fields pass balanced tokens, by induction on the depth of bodies.
* `BodyUpTo.closedAt`, `BodyUpTo.exists_label` — a body is read up to the brace that counting finds.
* `nameBehind_agrees` — the name that is found and the name that is read.
-/

namespace XdrBindings.Idl

open scoped Computability

/-! ## Counting braces -/

/-- What a token adds to the number of open braces. -/
def TokenKind.weight : TokenKind → Int
  | .symbol .openBrace => 1
  | .symbol .closeBrace => -1
  | _ => 0

theorem TokenKind.weight_eq_zero {kind : TokenKind} (hOpen : kind ≠ .symbol .openBrace)
    (hClose : kind ≠ .symbol .closeBrace) : kind.weight = 0 := by
  unfold weight
  split
  · exact absurd rfl hOpen
  · exact absurd rfl hClose
  · rfl

/-- How many more braces tokens open than they close. -/
def level : List Token → Int
  | [] => 0
  | token :: rest => token.kind.weight + level rest

@[simp] theorem level_nil : level [] = 0 := rfl

@[simp] theorem level_cons (token : Token) (rest : List Token) :
    level (token :: rest) = token.kind.weight + level rest := rfl

@[simp] theorem level_append (front back : List Token) :
    level (front ++ back) = level front + level back := by
  induction front with
  | nil => simp
  | cons token front ih =>
    rw [List.cons_append, level_cons, level_cons, ih]
    omega

/-- Whether tokens behind `depth` open braces close all of them and all that they open, and no brace
that is not open. -/
structure IsBalanced (depth : Nat) (tokens : List Token) : Prop where
  level_eq : depth + level tokens = 0
  front : ∀ count, 0 ≤ depth + level (tokens.take count)

variable {depth : Nat} {token opening close : Token} {tokens mid rest inner front back : List Token}

theorem isBalanced_nil : IsBalanced 0 [] where
  level_eq := rfl
  front count := by simp

/-- A token leads from one number of open braces to another one. -/
theorem isBalanced_cons_iff {next : Nat} (hNext : (next : Int) = depth + token.kind.weight) :
    IsBalanced depth (token :: rest) ↔ IsBalanced next rest := by
  constructor
  · intro h
    have hLevel := h.level_eq
    rw [level_cons] at hLevel
    refine ⟨by omega, fun count => ?_⟩
    have hFront := h.front (count + 1)
    rw [List.take_succ_cons, level_cons] at hFront
    omega
  · intro h
    have hLevel := h.level_eq
    refine ⟨by rw [level_cons]; omega, fun count => ?_⟩
    cases count with
    | zero => simp
    | succ count =>
      have hFront := h.front count
      rw [List.take_succ_cons, level_cons]
      omega

/-- The number of braces open behind the first token is not below zero. -/
theorem IsBalanced.exists_next (h : IsBalanced depth (token :: rest)) :
    ∃ next : Nat, (next : Int) = depth + token.kind.weight := by
  have hFirst := h.front 1
  rw [List.take_succ_cons, List.take_zero, level_cons, level_nil] at hFirst
  exact ⟨(depth + token.kind.weight).toNat, by omega⟩

theorem isBalanced_of_weight (h : ∀ token ∈ tokens, token.kind.weight = 0) :
    IsBalanced 0 tokens := by
  induction tokens with
  | nil => exact isBalanced_nil
  | cons token rest ih =>
    obtain ⟨hToken, hRest⟩ := List.forall_mem_cons.mp h
    exact (isBalanced_cons_iff (by rw [hToken]; rfl)).mpr (ih hRest)

theorem IsBalanced.append (hFront : IsBalanced depth front) (hBack : IsBalanced 0 back) :
    IsBalanced depth (front ++ back) where
  level_eq := by
    have hFirst := hFront.level_eq
    have hSecond := hBack.level_eq
    rw [level_append]
    omega
  front count := by
    have hFirst := hFront.front count
    have hSecond := hBack.front (count - front.length)
    rw [List.take_append, level_append]
    omega

/-- Braces around balanced tokens are balanced with them. -/
theorem IsBalanced.braces (hOpening : opening.kind = .symbol .openBrace)
    (hClose : close.kind = .symbol .closeBrace) (h : IsBalanced 0 inner) :
    IsBalanced 0 (opening :: (inner ++ [close])) := by
  have hOpen : opening.kind.weight = 1 := by rw [hOpening]; rfl
  have hShut : close.kind.weight = -1 := by rw [hClose]; rfl
  have hLevel := h.level_eq
  refine ⟨by simp [hOpen, hShut]; omega, fun count => ?_⟩
  cases count with
  | zero => simp
  | succ count =>
    have hFront := h.front count
    have hLast : -1 ≤ level ([close].take (count - inner.length)) := by
      cases count - inner.length <;> simp [hShut]
    rw [List.take_succ_cons, level_cons, List.take_append, level_append, hOpen]
    omega

/-! ## Where counting stops -/

/-- The tokens begin in braces, and `behind` begins with the brace that closes these, which is told
by counting. -/
structure ClosedAt (tokens behind : List Token) : Prop where
  isAhead : Grammar.isAhead .closeBrace behind = true
  balanced : ∃ inner, tokens = inner ++ behind ∧ IsBalanced 0 inner

theorem IsBalanced.not_close (hFront : IsBalanced 0 front)
    (hClose : token.kind = .symbol .closeBrace) : ¬IsBalanced 0 (front ++ token :: rest) := by
  intro h
  have hWeight : token.kind.weight = -1 := by rw [hClose]; rfl
  have hLevel := hFront.level_eq
  have hTaken := h.front (front.length + 1)
  rw [List.take_length_add_append, List.take_succ_cons, List.take_zero, level_append, level_cons,
    level_nil] at hTaken
  omega

/-- There is one such brace. -/
theorem ClosedAt.unique {first second : List Token} (hFirst : ClosedAt tokens first)
    (hSecond : ClosedAt tokens second) : first = second := by
  obtain ⟨hFirstClose, inner, rfl, hInner⟩ := hFirst
  obtain ⟨hSecondClose, other, hTokens, hOther⟩ := hSecond
  obtain ⟨close, rest, rfl, hClose⟩ := Grammar.isAhead_eq_true_iff.mp hFirstClose
  obtain ⟨last, others, rfl, hLast⟩ := Grammar.isAhead_eq_true_iff.mp hSecondClose
  rcases List.append_eq_append_iff.mp hTokens with ⟨between, rfl, hEq⟩ | ⟨between, rfl, hEq⟩
  · cases between with
    | nil => exact hEq
    | cons token between =>
      obtain ⟨rfl, -⟩ := List.cons.inj hEq
      exact absurd hOther (hInner.not_close hClose)
  · cases between with
    | nil => exact hEq.symm
    | cons token between =>
      obtain ⟨rfl, -⟩ := List.cons.inj hEq
      exact absurd hInner (hOther.not_close hLast)

/-! ## Balanced tokens that are passed -/

/-- Balanced tokens stand in front of the rest. -/
def Spans (tokens rest : List Token) : Prop := ∃ front, tokens = front ++ rest ∧ IsBalanced 0 front

theorem Spans.refl (tokens : List Token) : Spans tokens tokens := ⟨[], rfl, isBalanced_nil⟩

theorem Spans.trans (hFirst : Spans tokens mid) (hSecond : Spans mid rest) : Spans tokens rest := by
  obtain ⟨front, rfl, hFront⟩ := hFirst
  obtain ⟨back, rfl, hBack⟩ := hSecond
  exact ⟨front ++ back, (List.append_assoc ..).symm, hFront.append hBack⟩

theorem Spans.cons (hToken : token.kind.weight = 0) (h : Spans tokens rest) :
    Spans (token :: tokens) rest :=
  Spans.trans ⟨[token], rfl, isBalanced_of_weight (List.forall_mem_singleton.mpr hToken)⟩ h

/-- Braces are passed with what is balanced in them. -/
theorem Spans.braces (hOpening : opening.kind = .symbol .openBrace)
    (hClose : close.kind = .symbol .closeBrace) (h : Spans inner (close :: rest)) :
    Spans (opening :: inner) rest := by
  obtain ⟨front, rfl, hFront⟩ := h
  exact ⟨opening :: (front ++ [close]), by simp, hFront.braces hOpening hClose⟩

theorem weight_of_keyword {word : Keyword} (h : token.kind = .keyword word) :
    token.kind.weight = 0 := by
  rw [h]
  rfl

theorem weight_of_isPlain {kind : TokenKind} (h : kind.isPlain = true) : kind.weight = 0 := by
  simp only [TokenKind.isPlain, Bool.and_eq_true, bne_iff_ne] at h
  exact TokenKind.weight_eq_zero h.1.2 h.2

/-- Plain words have no braces to balance. -/
theorem IsPlain.spans {words : Language TokenKind} (hWords : IsPlain words)
    (h : Takes words tokens rest) : Spans tokens rest := by
  obtain ⟨front, hFront, rfl⟩ := h
  refine ⟨front, rfl, isBalanced_of_weight fun token hToken => weight_of_isPlain ?_⟩
  exact hWords.isPlain _ hFront _ (List.mem_map_of_mem hToken)

namespace Grammar

/-! ## The lookahead -/

theorem nameBehind_cons {next : Nat} (hNext : (next : Int) = depth + token.kind.weight) :
    nameBehind depth (token :: rest) = nameBehind next rest := by
  by_cases hOpen : token.kind = .symbol .openBrace
  · rw [hOpen] at hNext
    obtain rfl : next = depth + 1 := by
      simp only [TokenKind.weight] at hNext
      omega
    exact nameBehind_open hOpen depth
  by_cases hClose : token.kind = .symbol .closeBrace
  · rw [hClose] at hNext
    obtain rfl : depth = next + 1 := by
      simp only [TokenKind.weight] at hNext
      omega
    exact nameBehind_close_succ hClose next
  · rw [TokenKind.weight_eq_zero hOpen hClose] at hNext
    obtain rfl : next = depth := by omega
    exact nameBehind_of_ne hOpen hClose next

/-- Balanced tokens are passed over. -/
theorem nameBehind_append (h : IsBalanced depth front) (rest : List Token) :
    nameBehind depth (front ++ rest) = nameBehind 0 rest := by
  induction front generalizing depth with
  | nil =>
    obtain rfl : depth = 0 := by simpa using h.level_eq
    rfl
  | cons token front ih =>
    obtain ⟨next, hNext⟩ := h.exists_next
    rw [List.cons_append, nameBehind_cons hNext, ih ((isBalanced_cons_iff hNext).mp h)]

/-- The lookahead comes to the end of the tokens, or to a closing brace behind balanced ones. -/
theorem nameBehind_cases (depth : Nat) (tokens : List Token) :
    nameBehind depth tokens = .error ⟨.inlineClose, []⟩ ∨
      ∃ inner behind, tokens = inner ++ behind ∧ isAhead .closeBrace behind = true ∧
        IsBalanced depth inner := by
  induction tokens generalizing depth with
  | nil => exact .inl rfl
  | cons token rest ih =>
    by_cases hEnd : depth = 0 ∧ token.kind = .symbol .closeBrace
    · obtain ⟨rfl, hClose⟩ := hEnd
      exact .inr ⟨[], token :: rest, rfl, isAhead_eq_true_iff.mpr ⟨token, rest, rfl, hClose⟩,
        isBalanced_nil⟩
    · obtain ⟨next, hNext⟩ : ∃ next : Nat, (next : Int) = depth + token.kind.weight := by
        refine ⟨(depth + token.kind.weight).toNat, ?_⟩
        unfold TokenKind.weight
        split
        · omega
        · have hDepth : depth ≠ 0 := fun hZero => hEnd ⟨hZero, ‹_›⟩
          omega
        · omega
      rcases ih next with hError | ⟨inner, behind, rfl, hClose, hInner⟩
      · exact .inl ((nameBehind_cons hNext).trans hError)
      · exact .inr ⟨token :: inner, behind, rfl, hClose, (isBalanced_cons_iff hNext).mpr hInner⟩

/-- What the lookahead says where counting stops. -/
theorem nameBehind_of_closedAt (h : ClosedAt tokens back) :
    nameBehind 0 tokens = (identifier back.tail).map Prod.fst := by
  obtain ⟨hAhead, inner, rfl, hInner⟩ := h
  obtain ⟨close, rest, rfl, hClose⟩ := isAhead_eq_true_iff.mp hAhead
  rw [nameBehind_append hInner, nameBehind_close_zero hClose]
  rfl

theorem identifier_map_ne (tokens : List Token) :
    (identifier tokens).map Prod.fst ≠ .error ⟨.inlineClose, []⟩ := by
  intro h
  unfold identifier at h
  split at h <;> cases h

/-- The lookahead comes to the end of the tokens just where counting stops nowhere. -/
theorem nameBehind_eq_error_iff :
    nameBehind 0 tokens = .error ⟨.inlineClose, []⟩ ↔ ∀ behind, ¬ClosedAt tokens behind := by
  constructor
  · intro hError behind hClosed
    rw [nameBehind_of_closedAt hClosed] at hError
    exact identifier_map_ne _ hError
  · intro hNone
    rcases nameBehind_cases 0 tokens with hError | ⟨inner, behind, hTokens, hClose, hInner⟩
    · exact hError
    · exact absurd ⟨hClose, inner, hTokens, hInner⟩ (hNone behind)

theorem nameBehind_eq_ok_iff {name : String} :
    nameBehind 0 tokens = .ok name ↔
      ∃ behind rest, ClosedAt tokens behind ∧ identifier behind.tail = .ok (name, rest) := by
  constructor
  · intro hName
    rcases nameBehind_cases 0 tokens with hError | ⟨inner, behind, hTokens, hClose, hInner⟩
    · cases hName.symm.trans hError
    · have hClosed : ClosedAt tokens behind := ⟨hClose, inner, hTokens, hInner⟩
      rw [nameBehind_of_closedAt hClosed] at hName
      cases hFound : identifier behind.tail with
      | error fault =>
        rw [hFound] at hName
        cases hName
      | ok found =>
        obtain ⟨label, rest⟩ := found
        rw [hFound] at hName
        cases hName
        exact ⟨behind, rest, hClosed, hFound⟩
  · rintro ⟨behind, rest, hClosed, hFound⟩
    rw [nameBehind_of_closedAt hClosed, hFound]
    rfl

/-! ## What rules pass -/

variable {α : Type}

theorem labels_spans {found : List CaseLabel} (h : labels tokens = .ok (found, rest)) :
    Spans tokens rest := by
  have hReads : Reads Words.label∗ 0 tokens (labels tokens) := labels_reads begins_zero
  exact isPlain_label.kstar.spans (hReads.sound h)

theorem discriminant_spans {switch : Discriminant}
    (h : discriminant tokens = .ok (switch, rest)) : Spans tokens rest := by
  have hReads : Reads Words.discriminant 1 tokens (discriminant tokens) := discriminant_reads
  exact isPlain_discriminant.spans (hReads.sound h)

theorem inlineTail_spans {type : String} {shape : Shape}
    (h : inlineTail type tokens = .ok (shape, rest)) : Spans tokens rest := by
  have hReads : Reads Words.inlineTail 1 tokens (inlineTail type tokens) := inlineTail_reads
  exact isPlain_inlineTail.spans (hReads.sound h)

theorem Repeats.spans {item : List Token → Except Fault (Read α)} {values : List α}
    (h : Repeats item tokens values rest)
    (hItem : ∀ {tokens value rest}, item tokens = .ok (value, rest) → Spans tokens rest) :
    Spans tokens rest := by
  induction h with
  | nil => exact .refl _
  | cons hRead _ ih => exact (hItem hRead).trans ih

theorem body_spans {item : List Token → Except Fault (Read α)} {values : List α}
    (hOpening : opening.kind = .symbol .openBrace) (h : body item inner = .ok (values, rest))
    (hItem : ∀ {tokens value rest}, item tokens = .ok (value, rest) → Spans tokens rest) :
    Spans (opening :: inner) rest := by
  obtain ⟨close, hClose, hItems⟩ := body_read h
  exact (hItems.spans hItem).braces hOpening hClose

theorem arm_spans {field : List Token → Except Fault (Read Field)} {value : Arm}
    (hField : ∀ {tokens value rest}, field tokens = .ok (value, rest) → Spans tokens rest)
    (h : arm field tokens = .ok (value, rest)) : Spans tokens rest := by
  cases arm_read h with
  | void hLabels hSome hWord hSemicolon =>
    refine (labels_spans hLabels).trans ?_
    exact .cons (weight_of_keyword hWord) (.cons (by rw [hSemicolon]; rfl) (.refl _))
  | field hLabels hSome hContent => exact (labels_spans hLabels).trans (hField hContent)

/-- A field passes balanced tokens, whatever bodies are written in place within it. -/
theorem field_spans {depth : Nat} {parent : String} {value : Field}
    (h : field depth parent tokens = .ok (value, rest)) : Spans tokens rest := by
  induction depth generalizing parent tokens rest value with
  | zero => cases h
  | succ depth ih =>
    cases field_read h with
    | declared hDeclarator =>
      have hReads : Reads Words.declaration 1 tokens (declarator tokens) := declarator_reads
      exact isPlain_declaration.spans (hReads.sound hDeclarator)
    | struct hWord hOpening hName hFields hTail =>
      have hBody := body_spans hOpening hFields fun hItem => ih (structItem_read hItem)
      exact .cons (weight_of_keyword hWord) (hBody.trans (inlineTail_spans hTail))
    | union hWord hSwitch hOpening hName hArms hTail =>
      have hBody := body_spans hOpening hArms fun hItem => arm_spans ih hItem
      exact .cons (weight_of_keyword hWord)
        ((discriminant_spans hSwitch).trans (hBody.trans (inlineTail_spans hTail)))

/-! ## Bodies -/

/-- The fields of a structure or the arms of a union are read, up to a closing brace. -/
inductive BodyUpTo (tokens behind : List Token) : Prop
  | fields {bound depth : Nat} {parent : String} {found : List Field}
      (hFields : itemsUntilClose (structItem (field depth parent)) bound tokens =
        .ok (found, behind))
  | arms {bound depth : Nat} {parent : String} {found : List Arm}
      (hArms : itemsUntilClose (arm (field depth parent)) bound tokens = .ok (found, behind))

theorem itemsUntilClose_isAhead {item : List Token → Except Fault (Read α)} {bound : Nat}
    {values : List α} (h : itemsUntilClose item bound tokens = .ok (values, rest)) :
    isAhead .closeBrace rest = true := by
  induction bound generalizing tokens values with
  | zero => cases h
  | succ bound ih =>
    rw [itemsUntilClose] at h
    split at h
    · cases h
      assumption
    · obtain ⟨⟨value, mid⟩, -, h⟩ := bind_eq_ok_iff.mp h
      obtain ⟨⟨others, behind⟩, hOthers, h⟩ := bind_eq_ok_iff.mp h
      cases h
      exact ih hOthers

theorem itemsUntilClose_closedAt {item : List Token → Except Fault (Read α)} {bound : Nat}
    {values : List α} (h : itemsUntilClose item bound tokens = .ok (values, rest))
    (hItem : ∀ {tokens value rest}, item tokens = .ok (value, rest) → Spans tokens rest) :
    ClosedAt tokens rest :=
  ⟨itemsUntilClose_isAhead h, (itemsUntilClose_read h).spans hItem⟩

/-- A body is read up to the brace that counting finds. -/
theorem BodyUpTo.closedAt (h : BodyUpTo tokens back) : ClosedAt tokens back := by
  cases h with
  | fields hFields =>
    exact itemsUntilClose_closedAt hFields fun hItem => field_spans (structItem_read hItem)
  | arms hArms => exact itemsUntilClose_closedAt hArms fun hItem => arm_spans field_spans hItem

/-- Where a body has been read, the name that the lookahead has found stands behind its brace. -/
theorem BodyUpTo.exists_label {name : String} (h : BodyUpTo tokens back)
    (hName : nameBehind 0 tokens = .ok name) :
    ∃ close label rest, back = close :: label :: rest ∧ close.kind = .symbol .closeBrace ∧
      label.kind = .identifier name := by
  obtain ⟨behind, rest, hClosed, hFound⟩ := nameBehind_eq_ok_iff.mp hName
  obtain rfl := hClosed.unique h.closedAt
  obtain ⟨close, others, rfl, hClose⟩ := isAhead_eq_true_iff.mp hClosed.isAhead
  obtain ⟨label, rfl, hLabel⟩ := identifier_eq_ok_iff.mp hFound
  exact ⟨close, label, rest, rfl, hClose, hLabel⟩

/-- Where a field has a type written in place, the lookahead and the rule of its body have begun at
the same token, the first one in braces, and the name behind the body is the one looked up. -/
theorem exists_body_of_field {parent : String} {value : Field} {definition : Definition}
    (h : field depth parent tokens = .ok (value, rest))
    (hDefinition : value.type.definition? = some definition) :
    ∃ front opening inner close behind,
      tokens = front ++ opening :: inner ∧ (∀ token ∈ front, token.kind.weight = 0) ∧
      opening.kind = .symbol .openBrace ∧ nameBehind 0 inner = .ok value.name ∧
      BodyUpTo inner (close :: behind) ∧
      inlineTail definition.name behind = .ok (value.shape, rest) ∧
      definition.name = inlineName parent value.name := by
  cases depth with
  | zero => cases h
  | succ depth =>
    cases field_read h with
    | declared hDeclarator => cases hDefinition
    | @struct word opening inner behind _ name fields shape hWord hOpening hName hFields hTail =>
      cases hDefinition
      obtain ⟨close, -, hItems⟩ := exists_of_body hFields
      exact ⟨[word], opening, inner, close, behind, rfl,
        List.forall_mem_singleton.mpr (weight_of_keyword hWord), hOpening, hName, .fields hItems,
        hTail, rfl⟩
    | @union word opening switched inner behind _ name switch arms shape hWord hSwitch hOpening
        hName hArms hTail =>
      cases hDefinition
      have hReads : Reads Words.discriminant 1 switched (discriminant switched) :=
        discriminant_reads
      obtain ⟨front, hFront, rfl⟩ := hReads.sound hSwitch
      obtain ⟨close, -, hItems⟩ := exists_of_body hArms
      refine ⟨word :: front, opening, inner, close, behind, rfl,
        List.forall_mem_cons.mpr ⟨weight_of_keyword hWord, fun token hToken => ?_⟩, hOpening, hName,
        .arms hItems, hTail, rfl⟩
      exact weight_of_isPlain
        (isPlain_discriminant.isPlain _ hFront _ (List.mem_map_of_mem hToken))

/-! ## Agreement -/

/-- For any tokens in front of the end mark that begin within the braces of a type written in place:

* counting braces finds one closing brace at most;
* the lookahead gives a name just where counting finds a brace with that name behind it, and comes
  to the end of the tokens just where counting finds none;
* a body of fields or of arms that is read, whatever its types are named after and however deep
  bodies nest in it, is read up to the brace that counting finds;
* so the name behind the brace that the body ends at is the one that the lookahead has given, and
  where the lookahead has come to the end no body can be read up to a brace.

And whenever a field with a type written in place is read, the lookahead has taken nothing: it and
the rule of the body have begun at the same token, the first one in braces.  The type is named after
the field, and the tail that begins with the name of the field is read behind the body. -/
theorem nameBehind_agrees (tokens : List Token) :
    (∀ first second, ClosedAt tokens first → ClosedAt tokens second → first = second) ∧
    (∀ name, nameBehind 0 tokens = .ok name ↔
      ∃ behind rest, ClosedAt tokens behind ∧ identifier behind.tail = .ok (name, rest)) ∧
    (nameBehind 0 tokens = .error ⟨.inlineClose, []⟩ ↔ ∀ behind, ¬ClosedAt tokens behind) ∧
    (∀ behind, BodyUpTo tokens behind → ClosedAt tokens behind) ∧
    (∀ name behind, nameBehind 0 tokens = .ok name → BodyUpTo tokens behind →
      ∃ close label rest, behind = close :: label :: rest ∧ close.kind = .symbol .closeBrace ∧
        label.kind = .identifier name) ∧
    (nameBehind 0 tokens = .error ⟨.inlineClose, []⟩ → ∀ behind, ¬BodyUpTo tokens behind) ∧
    ∀ depth parent value rest definition, field depth parent tokens = .ok (value, rest) →
      value.type.definition? = some definition →
      ∃ front opening inner close label behind,
        tokens = front ++ opening :: inner ∧ (∀ token ∈ front, token.kind.weight = 0) ∧
        opening.kind = .symbol .openBrace ∧ nameBehind 0 inner = .ok value.name ∧
        BodyUpTo inner (close :: label :: behind) ∧ label.kind = .identifier value.name ∧
        inlineTail definition.name (label :: behind) = .ok (value.shape, rest) ∧
        definition.name = inlineName parent value.name := by
  refine ⟨fun first second => ClosedAt.unique, fun name => nameBehind_eq_ok_iff,
    nameBehind_eq_error_iff, fun behind => BodyUpTo.closedAt,
    fun name behind hName hBody => hBody.exists_label hName, fun hError behind hBody => ?_, ?_⟩
  · exact nameBehind_eq_error_iff.mp hError behind hBody.closedAt
  · intro depth parent value rest definition hField hDefinition
    obtain ⟨front, opening, inner, close, behind, hTokens, hFront, hOpening, hName, hBody, hTail,
      hInline⟩ := exists_body_of_field hField hDefinition
    obtain ⟨_, label, others, hBehind, -, hLabel⟩ := hBody.exists_label hName
    obtain ⟨rfl, rfl⟩ := List.cons.inj hBehind
    exact ⟨front, opening, inner, close, label, others, hTokens, hFront, hOpening, hName, hBody,
      hLabel, hTail, hInline⟩

end Grammar

end XdrBindings.Idl
