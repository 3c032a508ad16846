import XdrBindings.Proofs.Idl.Fields
import XdrBindings.Proofs.Idl.Printer

/-!
# Rules read what is printed

Where the tokens of a piece of a declaration are ahead, the rule for it gives that piece and stops
behind them.  The lemmas follow the printer, and each says what is ahead of the next rule, so that
they can be put one behind the other as the rules are.

## Main results

* `declarator_of_ahead` — a type, a name and its shape are read.
* `enum_of_ahead` — an enumeration is read.
* `discriminant_of_ahead`, `labels_of_ahead` — what a union switches on and labels are read.
* `body_of_ahead` — items in braces are read, where each item is.
-/

namespace XdrBindings.Idl

variable {line : Nat} {kind : TokenKind} {kinds front back : List TokenKind}
  {tokens rest : List Token}

/-! ## Tokens of given kinds -/

/-- `StandsAhead line kinds tokens rest` says that the tokens begin with tokens of the given kinds,
all on one line, and that the rest stands behind these. -/
def StandsAhead (line : Nat) (kinds : List TokenKind) (tokens rest : List Token) : Prop :=
  ∃ front, front.map Token.kind = kinds ∧ (∀ token ∈ front, token.position.line = line) ∧
    tokens = front ++ rest

@[simp]
theorem standsAhead_nil : StandsAhead line [] tokens rest ↔ tokens = rest := by
  simp [StandsAhead]

theorem standsAhead_cons : StandsAhead line (kind :: kinds) tokens rest ↔
    ∃ text position span others, tokens = ⟨kind, text, position, span⟩ :: others ∧
      position.line = line ∧ StandsAhead line kinds others rest := by
  constructor
  · rintro ⟨front, hKinds, hLines, rfl⟩
    obtain ⟨⟨_, text, position, span⟩, others, rfl, rfl, rfl⟩ := List.map_eq_cons_iff.mp hKinds
    exact ⟨text, position, span, others ++ rest, rfl, hLines _ List.mem_cons_self, others, rfl,
      fun token hToken => hLines token (List.mem_cons_of_mem _ hToken), rfl⟩
  · rintro ⟨text, position, span, _, rfl, hLine, front, rfl, hLines, rfl⟩
    refine ⟨⟨kind, text, position, span⟩ :: front, rfl, fun token hToken => ?_, rfl⟩
    rcases List.mem_cons.mp hToken with rfl | hMem
    · exact hLine
    · exact hLines token hMem

theorem standsAhead_append : StandsAhead line (front ++ back) tokens rest ↔
    ∃ mid, StandsAhead line front tokens mid ∧ StandsAhead line back mid rest := by
  constructor
  · rintro ⟨whole, hKinds, hLines, rfl⟩
    obtain ⟨first, second, rfl, hFirst, hSecond⟩ := List.map_eq_append_iff.mp hKinds
    exact ⟨second ++ rest,
      ⟨first, hFirst, fun token hToken => hLines token (by simp [hToken]), by simp⟩,
      second, hSecond, fun token hToken => hLines token (by simp [hToken]), rfl⟩
  · rintro ⟨_, ⟨first, rfl, hFirst, rfl⟩, second, rfl, hSecond, rfl⟩
    refine ⟨first ++ second, by simp, fun token hToken => ?_, by simp⟩
    rcases List.mem_append.mp hToken with hMem | hMem
    · exact hFirst token hMem
    · exact hSecond token hMem

theorem StandsAhead.length_eq (h : StandsAhead line kinds tokens rest) :
    tokens.length = kinds.length + rest.length := by
  obtain ⟨front, rfl, -, rfl⟩ := h
  simp

theorem StandsAhead.takes (h : StandsAhead line kinds tokens rest) :
    Takes {kinds} tokens rest := by
  obtain ⟨front, hKinds, -, hTokens⟩ := h
  exact ⟨front, hKinds, hTokens⟩

namespace Grammar

/-! ## Single tokens -/

theorem symbol_of_ahead {mark : Symbol}
    (h : StandsAhead line (.symbol mark :: kinds) tokens rest) :
    ∃ mid, symbol mark tokens = .ok mid ∧ StandsAhead line kinds mid rest := by
  obtain ⟨_, _, _, mid, rfl, -, hMid⟩ := standsAhead_cons.mp h
  exact ⟨mid, by simp [symbol, isAhead], hMid⟩

theorem keyword_of_ahead {word : Keyword}
    (h : StandsAhead line (.keyword word :: kinds) tokens rest) :
    ∃ mid, keyword word tokens = .ok mid ∧ StandsAhead line kinds mid rest := by
  obtain ⟨_, _, _, mid, rfl, -, hMid⟩ := standsAhead_cons.mp h
  exact ⟨mid, by simp [keyword, isKeywordAhead], hMid⟩

theorem identifier_of_ahead {name : String}
    (h : StandsAhead line (.identifier name :: kinds) tokens rest) :
    ∃ mid, identifier tokens = .ok (name, mid) ∧ StandsAhead line kinds mid rest := by
  obtain ⟨_, _, _, mid, rfl, -, hMid⟩ := standsAhead_cons.mp h
  exact ⟨mid, rfl, hMid⟩

theorem number_of_ahead {value : Int}
    (h : StandsAhead line (.number value :: kinds) tokens rest) :
    ∃ mid, number tokens = .ok (value, mid) ∧ StandsAhead line kinds mid rest := by
  obtain ⟨_, _, _, mid, rfl, -, hMid⟩ := standsAhead_cons.mp h
  exact ⟨mid, rfl, hMid⟩

theorem size_of_ahead {size : Size} (h : StandsAhead line (size.token :: kinds) tokens rest) :
    ∃ mid, Grammar.size tokens = .ok (size, mid) ∧ StandsAhead line kinds mid rest := by
  obtain ⟨_, _, _, mid, rfl, -, hMid⟩ := standsAhead_cons.mp h
  refine ⟨mid, ?_, hMid⟩
  cases size with
  | literal value => simp [Grammar.size, Size.token]
  | named name => rfl

/-! ## What is ahead -/

theorem isAhead_eq {mark : Symbol} (h : StandsAhead line (kind :: kinds) tokens rest) :
    isAhead mark tokens = (kind == .symbol mark) := by
  obtain ⟨_, _, _, _, rfl, -, -⟩ := standsAhead_cons.mp h
  rfl

theorem isKeywordAhead_eq {word : Keyword} (h : StandsAhead line (kind :: kinds) tokens rest) :
    isKeywordAhead word tokens = (kind == .keyword word) := by
  obtain ⟨_, _, _, _, rfl, -, -⟩ := standsAhead_cons.mp h
  rfl

theorem isEmpty_eq_false (h : StandsAhead line (kind :: kinds) tokens rest) :
    tokens.isEmpty = false := by
  obtain ⟨_, _, _, _, rfl, -, -⟩ := standsAhead_cons.mp h
  rfl

theorem lineAhead_eq (hKinds : kinds ≠ []) (h : StandsAhead line kinds tokens rest) :
    lineAhead tokens = line := by
  obtain ⟨kind, others, rfl⟩ := List.exists_cons_of_ne_nil hKinds
  obtain ⟨_, _, _, _, rfl, hLine, -⟩ := standsAhead_cons.mp h
  exact hLine

/-- What is ahead behind the first token. -/
theorem tail_of_ahead (h : StandsAhead line (kind :: kinds) tokens rest) :
    StandsAhead line kinds tokens.tail rest := by
  obtain ⟨_, _, _, _, rfl, -, hTail⟩ := standsAhead_cons.mp h
  exact hTail

/-! ## Types and shapes -/

/-- A type begins with a name or with the reserved word of a primitive type. -/
theorem typeTokens_eq_cons {name : String} (h : IsTypeName name) :
    ∃ kind others, typeTokens name = kind :: others ∧ ((∃ word, kind = .identifier word) ∨
      ∃ word, kind = .keyword word ∧ word ∉ [.struct, .union, .case, .default, .void]) := by
  have hVoid : name ≠ Primitive.void.name := by
    rintro rfl
    rcases h with hName | ⟨primitive, hNe, hName⟩
    · revert hName
      decide
    · revert hNe hName
      cases primitive <;> decide
  unfold typeTokens
  split
  · rename_i primitive hFind
    obtain rfl : primitive.name = name := by simpa using List.find?_some hFind
    cases primitive with
    | void => exact absurd rfl hVoid
    | _ => exact ⟨_, _, rfl, .inr ⟨_, rfl, by decide⟩⟩
  · exact ⟨_, _, rfl, .inl ⟨_, rfl⟩⟩

theorem typeName_of_ahead {name : String} (hType : IsTypeName name)
    (h : StandsAhead line (typeTokens name ++ kinds) tokens rest) :
    ∃ mid, typeName tokens = .ok (name, mid) ∧ StandsAhead line kinds mid rest := by
  obtain ⟨kind, others, hTokens, hKind⟩ := typeTokens_eq_cons hType
  unfold typeTokens at h hTokens
  split at h <;> rename_i hFind <;> rw [hFind] at hTokens
  · rename_i primitive
    obtain rfl : primitive.name = name := by simpa using List.find?_some hFind
    cases primitive
    case void =>
      obtain ⟨rfl, -⟩ := List.cons.inj hTokens
      simp at hKind
    case uint32 | uint64 =>
      obtain ⟨_, _, _, _, rfl, -, hNext⟩ := standsAhead_cons.mp h
      obtain ⟨_, _, _, mid, rfl, -, hMid⟩ := standsAhead_cons.mp hNext
      exact ⟨mid, rfl, hMid⟩
    all_goals
      obtain ⟨_, _, _, mid, rfl, -, hMid⟩ := standsAhead_cons.mp h
      exact ⟨mid, rfl, hMid⟩
  · obtain ⟨_, _, _, mid, rfl, -, hMid⟩ := standsAhead_cons.mp h
    exact ⟨mid, rfl, hMid⟩

/-- Angle brackets, with a bound or without one, give the shape that the type calls for. -/
theorem angles_of_ahead {type : String} {bound : Option Size}
    (h : StandsAhead line ((Shape.variableArray bound).suffix ++ kinds) tokens rest) :
    ∃ mid, suffix type tokens = .ok (angleShape type bound, mid) ∧
      StandsAhead line kinds mid rest := by
  cases bound with
  | none =>
    have hClose := tail_of_ahead h
    refine ⟨tokens.tail.tail, ?_, tail_of_ahead hClose⟩
    simp [suffix, isAhead_eq h, isAhead_eq hClose, pure, Except.pure]
  | some size =>
    have hSize := tail_of_ahead h
    obtain ⟨_, hRead, hClose⟩ := size_of_ahead hSize
    obtain ⟨mid, hMark, hMid⟩ := symbol_of_ahead hClose
    have hNot : (size.token == .symbol .closeAngle) = false := by cases size <;> rfl
    refine ⟨mid, ?_, hMid⟩
    simp [suffix, isAhead_eq h, isAhead_eq hSize, hNot, hRead, hMark, bind, Except.bind, pure,
      Except.pure]

theorem suffix_of_ahead {type : String} {shape : Shape} (hFits : shape.Fits type)
    (hOptional : shape ≠ .optional)
    (h : StandsAhead line (shape.suffix ++ .symbol .semicolon :: kinds) tokens rest) :
    ∃ mid, suffix type tokens = .ok (shape, mid) ∧
      StandsAhead line (.symbol .semicolon :: kinds) mid rest := by
  cases shape with
  | plain => exact ⟨tokens, by simp [suffix, isAhead_eq h, pure, Except.pure], h⟩
  | optional => exact absurd rfl hOptional
  | fixedArray size =>
    obtain ⟨_, hRead, hClose⟩ := size_of_ahead (tail_of_ahead h)
    obtain ⟨mid, hMark, hMid⟩ := symbol_of_ahead hClose
    refine ⟨mid, ?_, hMid⟩
    simp [suffix, isAhead_eq h, hRead, hMark, bind, Except.bind, pure, Except.pure]
  | variableArray bound =>
    rw [← angleShape_of_ne hFits.1 bound]
    exact angles_of_ahead h
  | boundedString bound =>
    rw [Shape.suffix_boundedString] at h
    rw [hFits.1, ← angleShape_string bound]
    exact angles_of_ahead h

theorem declarator_of_ahead {type name : String} {shape : Shape} (hType : IsTypeName type)
    (hFits : shape.Fits type)
    (h : StandsAhead line (typeTokens type ++ (shape.declared name ++ .symbol .semicolon :: kinds))
      tokens rest) :
    ∃ mid, declarator tokens = .ok (⟨type, name, shape⟩, mid) ∧
      StandsAhead line kinds mid rest := by
  obtain ⟨_, hRead, hDeclared⟩ := typeName_of_ahead hType h
  by_cases hOptional : shape = .optional
  · subst hOptional
    obtain ⟨_, hName, hMark⟩ := identifier_of_ahead (tail_of_ahead hDeclared)
    obtain ⟨mid, hEnd, hMid⟩ := symbol_of_ahead hMark
    refine ⟨mid, ?_, hMid⟩
    simp [declarator, hRead, isAhead_eq hDeclared, hName, hEnd, bind, Except.bind, pure,
      Except.pure]
  · rw [Shape.declared_of_ne hOptional] at hDeclared
    obtain ⟨_, hName, hSuffix⟩ := identifier_of_ahead hDeclared
    obtain ⟨_, hShape, hMark⟩ := suffix_of_ahead hFits hOptional hSuffix
    obtain ⟨mid, hEnd, hMid⟩ := symbol_of_ahead hMark
    refine ⟨mid, ?_, hMid⟩
    simp [declarator, hRead, isAhead_eq hDeclared, hName, hShape, hEnd, bind, Except.bind, pure,
      Except.pure]

/-- Behind a type written in place stand its name and its shape. -/
theorem inlineTail_of_ahead {type name : String} {shape : Shape}
    (hType : type ≠ Primitive.string.name) (hFits : shape.FitsInline)
    (h : StandsAhead line (shape.declared name ++ .symbol .semicolon :: kinds) tokens rest) :
    ∃ mid, inlineTail type tokens = .ok (shape, mid) ∧ StandsAhead line kinds mid rest := by
  rw [Shape.declared_of_ne hFits.ne_optional] at h
  obtain ⟨_, hName, hSuffix⟩ := identifier_of_ahead h
  obtain ⟨_, hRead, hMark⟩ := suffix_of_ahead (hFits.fits hType) hFits.ne_optional hSuffix
  obtain ⟨mid, hEnd, hMid⟩ := symbol_of_ahead hMark
  refine ⟨mid, ?_, hMid⟩
  simp [inlineTail, hName, hRead, hEnd, bind, Except.bind, pure, Except.pure]

/-! ## Items in braces -/

section

variable {α β : Type} {item : List Token → Except Fault (Read α)} {mid : List Token}

theorem itemsUntilClose_nil (hClose : isAhead .closeBrace tokens = true) (bound : Nat) :
    itemsUntilClose item (bound + 1) tokens = .ok ([], tokens) := by
  simp [itemsUntilClose, hClose]

theorem itemsUntilClose_cons {bound : Nat} {value : α} {values : List α}
    (hClose : isAhead .closeBrace tokens = false) (hItem : item tokens = .ok (value, mid))
    (hOthers : itemsUntilClose item bound mid = .ok (values, rest)) :
    itemsUntilClose item (bound + 1) tokens = .ok (value :: values, rest) := by
  simp [itemsUntilClose, hClose, hItem, hOthers, bind, Except.bind, pure, Except.pure]

/-- Items ahead are read one after the other, as long as none begins with a closing brace. -/
theorem itemsUntilClose_of_ahead {print : β → List TokenKind} {made : β → α} {values : List β}
    (hItem : ∀ value ∈ values, ∀ {tokens rest}, StandsAhead line (print value) tokens rest →
      item tokens = .ok (made value, rest))
    (hStart : ∀ value ∈ values, ∃ kind others, print value = kind :: others ∧
      kind ≠ .symbol .closeBrace) (bound : Nat) (hBound : tokens.length ≤ bound)
    (h : StandsAhead line (values.flatMap print ++ .symbol .closeBrace :: kinds) tokens rest) :
    ∃ mid, itemsUntilClose item (bound + 1) tokens = .ok (values.map made, mid) ∧
      StandsAhead line (.symbol .closeBrace :: kinds) mid rest := by
  induction values generalizing bound tokens with
  | nil => exact ⟨tokens, itemsUntilClose_nil (isAhead_eq h) bound, h⟩
  | cons value values ih =>
    obtain ⟨hValue, hItems⟩ := List.forall_mem_cons.mp hItem
    obtain ⟨⟨kind, others, hPrint, hKind⟩, hStarts⟩ := List.forall_mem_cons.mp hStart
    rw [List.flatMap_cons, List.append_assoc] at h
    obtain ⟨next, hFirst, hOthers⟩ := standsAhead_append.mp h
    have hLength := hFirst.length_eq
    have hClose : isAhead .closeBrace tokens = false := by
      rw [hPrint] at hFirst
      rw [isAhead_eq hFirst]
      simpa using hKind
    rw [hPrint, List.length_cons] at hLength
    obtain ⟨bound, rfl⟩ := Nat.exists_eq_succ_of_ne_zero (show bound ≠ 0 by omega)
    obtain ⟨mid, hRead, hMid⟩ := ih hItems hStarts bound (by omega) hOthers
    exact ⟨mid, itemsUntilClose_cons hClose (hValue hFirst) hRead, hMid⟩

/-- A body is read where its items are. -/
theorem body_of_items {values : List α}
    (hItems : ∃ mid, itemsUntilClose item (tokens.length + 1) tokens = .ok (values, mid) ∧
      StandsAhead line (.symbol .closeBrace :: kinds) mid rest) :
    ∃ mid, body item tokens = .ok (values, mid) ∧ StandsAhead line kinds mid rest := by
  obtain ⟨_, hRead, hClose⟩ := hItems
  obtain ⟨mid, hMark, hMid⟩ := symbol_of_ahead hClose
  refine ⟨mid, ?_, hMid⟩
  simp [body, hRead, hMark, bind, Except.bind, pure, Except.pure]

theorem body_of_ahead {print : β → List TokenKind} {made : β → α} {values : List β}
    (hItem : ∀ value ∈ values, ∀ {tokens rest}, StandsAhead line (print value) tokens rest →
      item tokens = .ok (made value, rest))
    (hStart : ∀ value ∈ values, ∃ kind others, print value = kind :: others ∧
      kind ≠ .symbol .closeBrace)
    (h : StandsAhead line (values.flatMap print ++ .symbol .closeBrace :: kinds) tokens rest) :
    ∃ mid, body item tokens = .ok (values.map made, mid) ∧ StandsAhead line kinds mid rest :=
  body_of_items (itemsUntilClose_of_ahead hItem hStart _ (Nat.le_refl _) h)

end

/-! ## Constants, typedefs and enumerations -/

theorem constant_of_ahead {declared : Constant}
    (h : StandsAhead line (.identifier declared.name :: .symbol .assign ::
      .number declared.value :: .symbol .semicolon :: kinds) tokens rest) :
    ∃ mid, constant line tokens = .ok ({ declared with line }, mid) ∧
      StandsAhead line kinds mid rest := by
  obtain ⟨_, hName, hAssign⟩ := identifier_of_ahead h
  obtain ⟨_, hMark, hNumber⟩ := symbol_of_ahead hAssign
  obtain ⟨_, hValue, hSemicolon⟩ := number_of_ahead hNumber
  obtain ⟨mid, hEnd, hMid⟩ := symbol_of_ahead hSemicolon
  refine ⟨mid, ?_, hMid⟩
  simp [constant, hName, hMark, hValue, hEnd, bind, Except.bind, pure, Except.pure]

theorem enumSource_of_ahead {source : EnumSource} (hSource : source.WellFormed)
    (h : StandsAhead line (source.token :: kinds) tokens rest) :
    ∃ mid, enumSource tokens = .ok (source, mid) ∧ StandsAhead line kinds mid rest := by
  obtain ⟨_, _, _, mid, rfl, -, hMid⟩ := standsAhead_cons.mp h
  refine ⟨mid, ?_, hMid⟩
  cases source with
  | literal value => rfl
  | reference symbol resolved =>
    obtain ⟨-, rfl⟩ := hSource
    rfl

/-- A value is read with the comma behind it, if there is one. -/
theorem enumValue_of_ahead {value : EnumValue} (hValue : value.WellFormed)
    (h : StandsAhead line (value.tokens ++ kind :: kinds) tokens rest) :
    ∃ mid, enumValue tokens = .ok (value.onLine line, mid) ∧
      StandsAhead line (if kind = .symbol .comma then kinds else kind :: kinds) mid rest := by
  have hLine := lineAhead_eq (List.cons_ne_nil _ _) h
  obtain ⟨_, hName, hAssign⟩ := identifier_of_ahead h
  obtain ⟨_, hMark, hSource⟩ := symbol_of_ahead hAssign
  obtain ⟨behind, hRead, hBehind⟩ := enumSource_of_ahead hValue.source hSource
  refine ⟨if kind = .symbol .comma then behind.tail else behind, ?_, ?_⟩
  · simp [enumValue, hLine, hName, hMark, hRead, isAhead_eq hBehind, bind, Except.bind, pure,
      Except.pure, EnumValue.onLine]
  · split
    · exact tail_of_ahead hBehind
    · exact hBehind

/-- Values with commas between them are read one after the other. -/
theorem itemsUntilClose_enumValue {values : List EnumValue}
    (hValues : ∀ value ∈ values, value.WellFormed) (bound : Nat) (hBound : tokens.length ≤ bound)
    (h : StandsAhead line (tokensOfValues values ++ .symbol .closeBrace :: kinds) tokens rest) :
    ∃ mid, itemsUntilClose enumValue (bound + 1) tokens =
        .ok (values.map (EnumValue.onLine line), mid) ∧
      StandsAhead line (.symbol .closeBrace :: kinds) mid rest := by
  induction values generalizing bound tokens with
  | nil => exact ⟨tokens, itemsUntilClose_nil (isAhead_eq h) bound, h⟩
  | cons value values ih =>
    obtain ⟨hValue, hRest⟩ := List.forall_mem_cons.mp hValues
    -- behind a value stands a comma or, behind the last one, the closing brace
    have hSplit : ∃ kind others,
        tokensOfValues (value :: values) ++ .symbol .closeBrace :: kinds =
          value.tokens ++ kind :: others ∧
        (if kind = .symbol .comma then others else kind :: others) =
          tokensOfValues values ++ .symbol .closeBrace :: kinds := by
      cases values with
      | nil => exact ⟨.symbol .closeBrace, kinds, rfl, rfl⟩
      | cons next values => exact ⟨.symbol .comma, _, by simp [tokensOfValues], rfl⟩
    obtain ⟨kind, others, hKinds, hOthers⟩ := hSplit
    rw [hKinds] at h
    obtain ⟨behind, hFirst, hBehind⟩ := enumValue_of_ahead hValue h
    have hLength : behind.length < tokens.length := by
      have hBefore := h.length_eq
      have hAfter := hBehind.length_eq
      simp only [EnumValue.tokens, List.length_append, List.length_cons] at hBefore
      split at hAfter
      · omega
      · rw [List.length_cons] at hAfter
        omega
    have hClose : isAhead .closeBrace tokens = false := isAhead_eq h
    rw [hOthers] at hBehind
    obtain ⟨bound, rfl⟩ := Nat.exists_eq_succ_of_ne_zero (show bound ≠ 0 by omega)
    obtain ⟨mid, hRead, hMid⟩ := ih hRest bound (by omega) hBehind
    exact ⟨mid, itemsUntilClose_cons hClose hFirst hRead, hMid⟩

theorem enum_of_ahead {declared : Enum} (hValues : ∀ value ∈ declared.values, value.WellFormed)
    (h : StandsAhead line (.identifier declared.name ::
      (braced (tokensOfValues declared.values) ++ .symbol .semicolon :: kinds)) tokens rest) :
    ∃ mid, enum line tokens =
        .ok (⟨declared.name, declared.values.map (EnumValue.onLine line), line⟩, mid) ∧
      StandsAhead line kinds mid rest := by
  obtain ⟨_, hName, hBraced⟩ := identifier_of_ahead h
  simp only [braced, List.cons_append, List.append_assoc, List.nil_append] at hBraced
  obtain ⟨_, hOpen, hItems⟩ := symbol_of_ahead hBraced
  obtain ⟨_, hRead, hSemicolon⟩ := body_of_items
    (itemsUntilClose_enumValue hValues _ (Nat.le_refl _) hItems)
  obtain ⟨mid, hEnd, hMid⟩ := symbol_of_ahead hSemicolon
  refine ⟨mid, ?_, hMid⟩
  simp [enum, hName, hOpen, hRead, hEnd, bind, Except.bind, pure, Except.pure]

/-! ## Unions -/

theorem switchType_of_ahead {type : SwitchType}
    (h : StandsAhead line (type.tokens ++ kinds) tokens rest) :
    ∃ mid, switchType tokens = .ok (type, mid) ∧ StandsAhead line kinds mid rest := by
  cases type with
  | unsignedInt =>
    obtain ⟨_, _, _, _, rfl, -, hInt⟩ := standsAhead_cons.mp h
    obtain ⟨_, _, _, mid, rfl, -, hMid⟩ := standsAhead_cons.mp hInt
    exact ⟨mid, rfl, hMid⟩
  | _ =>
    obtain ⟨_, _, _, mid, rfl, -, hMid⟩ := standsAhead_cons.mp h
    exact ⟨mid, rfl, hMid⟩

theorem discriminant_of_ahead {switch : Discriminant}
    (h : StandsAhead line (switch.tokens ++ kinds) tokens rest) :
    ∃ mid, discriminant tokens = .ok (switch, mid) ∧ StandsAhead line kinds mid rest := by
  simp only [Discriminant.tokens, List.cons_append, List.append_assoc, List.nil_append] at h
  obtain ⟨_, hSwitch, hParen⟩ := keyword_of_ahead h
  obtain ⟨_, hOpen, hType⟩ := symbol_of_ahead hParen
  obtain ⟨_, hRead, hIdentifier⟩ := switchType_of_ahead hType
  obtain ⟨_, hName, hEnd⟩ := identifier_of_ahead hIdentifier
  obtain ⟨mid, hClose, hMid⟩ := symbol_of_ahead hEnd
  refine ⟨mid, ?_, hMid⟩
  simp [discriminant, hSwitch, hOpen, hRead, hName, hClose, bind, Except.bind, pure, Except.pure]

/-- A label other than the default is read by its number or its name. -/
theorem caseLabel_of_ahead {label : CaseLabel} {value : TokenKind}
    (hValue : ∀ text position span behind,
      caseValue (⟨value, text, position, span⟩ :: behind) = .ok (label, behind))
    (h : StandsAhead line (.keyword .case :: value :: .symbol .colon :: kinds) tokens rest) :
    isLabelAhead tokens = true ∧
      ∃ mid, Grammar.label tokens = .ok (label, mid) ∧ StandsAhead line kinds mid rest := by
  obtain ⟨_, hCase, hTail⟩ := keyword_of_ahead h
  obtain ⟨text, position, span, behind, rfl, -, hColon⟩ := standsAhead_cons.mp hTail
  obtain ⟨mid, hMark, hMid⟩ := symbol_of_ahead hColon
  refine ⟨by simp [isLabelAhead, isKeywordAhead_eq h], mid, ?_, hMid⟩
  simp [Grammar.label, isKeywordAhead_eq h, hCase, hValue, hMark, bind, Except.bind, pure,
    Except.pure]

theorem label_of_ahead {label : CaseLabel}
    (h : StandsAhead line (label.tokens ++ kinds) tokens rest) :
    isLabelAhead tokens = true ∧
      ∃ mid, Grammar.label tokens = .ok (label, mid) ∧ StandsAhead line kinds mid rest := by
  cases label with
  | named name => exact caseLabel_of_ahead (fun _ _ _ _ => rfl) h
  | literal value => exact caseLabel_of_ahead (fun _ _ _ _ => rfl) h
  | default =>
    obtain ⟨mid, hMark, hMid⟩ := symbol_of_ahead (tail_of_ahead h)
    refine ⟨by simp [isLabelAhead, isKeywordAhead_eq h], mid, ?_, hMid⟩
    simp [Grammar.label, isKeywordAhead_eq h, hMark, bind, Except.bind, pure, Except.pure]

/-- Labels are read up to what begins with no label. -/
theorem labels_of_ahead {labels : List CaseLabel} (hCase : kind ≠ .keyword .case)
    (hDefault : kind ≠ .keyword .default)
    (h : StandsAhead line (labels.flatMap CaseLabel.tokens ++ kind :: kinds) tokens rest) :
    ∃ mid, Grammar.labels tokens = .ok (labels, mid) ∧
      StandsAhead line (kind :: kinds) mid rest := by
  induction labels generalizing tokens with
  | nil =>
    refine ⟨tokens, ?_, h⟩
    have hNone : isLabelAhead tokens = false := by
      simp [isLabelAhead, isKeywordAhead_eq h, hCase, hDefault]
    rw [labels_eq, hNone]
    rfl
  | cons label labels ih =>
    rw [List.flatMap_cons, List.append_assoc] at h
    obtain ⟨hAhead, _, hLabel, hOthers⟩ := label_of_ahead h
    obtain ⟨mid, hLabels, hMid⟩ := ih hOthers
    refine ⟨mid, ?_, hMid⟩
    rw [labels_eq, if_pos hAhead]
    simp [hLabel, hLabels, bind, Except.bind, pure, Except.pure]

end Grammar

end XdrBindings.Idl
