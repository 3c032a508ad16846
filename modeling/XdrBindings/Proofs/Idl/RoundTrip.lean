import XdrBindings.Proofs.Idl.Acceptance
import XdrBindings.Proofs.Idl.PrintedFields

/-!
# What is written is parsed

A file is written as text, with a space between its tokens, and the text is parsed.  What comes back
are the definitions that were written, all on the line of the text, each behind the types written in
place within it.

## Main results

* `definition_of_ahead`, `topLevel_of_ahead` — definitions and files are read where they are ahead.
* `parse_written` — a written file is parsed as the definitions that were written.
-/

namespace XdrBindings.Idl

namespace Grammar

variable {line : Nat} {tokens rest : List Token}

/-! ## What is printed -/

theorem isPrinted_enumValue {value : EnumValue} (h : value.WellFormed) :
    IsPrinted value.tokens := by
  obtain ⟨name, source, inner⟩ := value
  have hName := h.name
  have hSource := h.source
  cases source with
  | literal number =>
    have hNumber : fitsWord number = true := hSource
    exact isPrinted_of_forall (by simp [EnumValue.tokens, EnumSource.token, hName, hNumber])
  | reference symbol resolved =>
    have hSymbol : isIdentifier symbol = true := hSource.1
    exact isPrinted_of_forall (by simp [EnumValue.tokens, EnumSource.token, hName, hSymbol])

theorem isPrinted_tokensOfValues {values : List EnumValue}
    (h : ∀ value ∈ values, value.WellFormed) : IsPrinted (tokensOfValues values) := by
  induction values using tokensOfValues.induct with
  | case1 => exact isPrinted_nil
  | case2 value => exact isPrinted_enumValue (List.forall_mem_singleton.mp h)
  | case3 value next values ih =>
    obtain ⟨hValue, hOthers⟩ := List.forall_mem_cons.mp h
    have hComma : IsPrinted [.symbol .comma] := isPrinted_of_forall (by decide)
    exact (isPrinted_enumValue hValue).append (hComma.append (ih hOthers))

theorem isPrinted_definition {definition : Definition} (h : definition.WellFormed) :
    IsPrinted definition.tokens := by
  have hMark : IsPrinted [.symbol .semicolon] := isPrinted_of_forall (by decide)
  have hFirst {word : Keyword} {name : String} (hName : isIdentifier name = true) :
      IsPrinted [.keyword word, .identifier name] := isPrinted_of_forall (by simp [hName])
  cases h with
  | constant hName hValue =>
    exact isPrinted_of_forall (by simp [Definition.tokens, hName, hValue])
  | typedef hName hType hShape =>
    have hTypedef : IsPrinted [.keyword .typedef] := isPrinted_of_forall (by decide)
    exact hTypedef.append
      ((isPrinted_typeTokens hType).append ((isPrinted_declared hName hShape).append hMark))
  | enum hName hValues =>
    exact (hFirst hName).append ((isPrinted_tokensOfValues hValues).braced.append hMark)
  | struct hName hFields =>
    have hItems := isPrinted_fields fun field hField => isPrinted_field (hFields field hField)
    exact (hFirst hName).append (hItems.braced.append hMark)
  | union hName hSwitch hArms =>
    have hItems := isPrinted_arms fun arm hArm => isPrinted_arm (hArms arm hArm)
    exact (hFirst hName).append
      (((isPrinted_discriminant hSwitch).append hItems.braced).append hMark)

theorem isPrinted_fileTokens {nameSpace : Option String} {definitions : List Definition}
    (hName : ∀ name ∈ nameSpace, isIdentifier name = true)
    (hDefinitions : ∀ definition ∈ definitions, definition.WellFormed) :
    IsPrinted (fileTokens nameSpace definitions) := by
  have hItems : IsPrinted (definitions.flatMap Definition.tokens) :=
    .flatMap fun definition hMem => isPrinted_definition (hDefinitions definition hMem)
  cases nameSpace with
  | none => exact hItems
  | some name =>
    have hFirst : IsPrinted [.keyword .nameSpace, .identifier name] :=
      isPrinted_of_forall (by simp [hName name rfl])
    exact hFirst.append hItems.braced

/-! ## Reading definitions -/

/-- A definition begins with its reserved word, which is not that of a namespace. -/
theorem definitionTokens_eq_cons (definition : Definition) : ∃ word others,
    definition.tokens = .keyword word :: others ∧ word ≠ .nameSpace := by
  cases definition <;> exact ⟨_, _, rfl, by decide⟩

theorem definition_of_ahead {definition : Definition} (hWell : definition.WellFormed)
    (h : StandsAhead line definition.tokens tokens rest) :
    Grammar.definition tokens = .ok (definition.onLine line, rest) := by
  obtain ⟨word, others, hTokens, -⟩ := definitionTokens_eq_cons definition
  have hLine : lineAhead tokens = line := lineAhead_eq (by simp [hTokens]) h
  cases hWell with
  | constant hName hValue =>
    obtain ⟨_, hRead, hRest⟩ := constant_of_ahead (tail_of_ahead h)
    obtain rfl := standsAhead_nil.mp hRest
    simp [Grammar.definition, isKeywordAhead_eq h, hLine, hRead, Definition.onLine, bind,
      Except.bind, pure, Except.pure]
  | typedef hName hType hShape =>
    obtain ⟨_, hRead, hRest⟩ := declarator_of_ahead hType hShape (tail_of_ahead h)
    obtain rfl := standsAhead_nil.mp hRest
    simp [Grammar.definition, isKeywordAhead_eq h, hLine, typedef, hRead, Definition.onLine, bind,
      Except.bind, pure, Except.pure]
  | enum hName hValues =>
    obtain ⟨_, hRead, hRest⟩ := enum_of_ahead hValues (tail_of_ahead h)
    obtain rfl := standsAhead_nil.mp hRest
    simp [Grammar.definition, isKeywordAhead_eq h, hLine, hRead, Definition.onLine, bind,
      Except.bind, pure, Except.pure]
  | struct hName hFields =>
    obtain ⟨_, hRead, hRest⟩ := struct_of_ahead hFields (tail_of_ahead h)
    obtain rfl := standsAhead_nil.mp hRest
    simp [Grammar.definition, isKeywordAhead_eq h, hLine, hRead, Definition.onLine, bind,
      Except.bind, pure, Except.pure]
  | union hName hSwitch hArms =>
    obtain ⟨_, hRead, hRest⟩ := union_of_ahead hArms (tail_of_ahead h)
    obtain rfl := standsAhead_nil.mp hRest
    simp [Grammar.definition, isKeywordAhead_eq h, hLine, hRead, Definition.onLine, bind,
      Except.bind, pure, Except.pure]

/-- Definitions are read one after the other up to the end of the tokens or of the namespace. -/
theorem definitions_of_ahead (inNameSpace : Bool) {definitions : List Definition}
    (hWell : ∀ definition ∈ definitions, definition.WellFormed)
    (hEnd : (rest.isEmpty || (inNameSpace && isAhead .closeBrace rest)) = true) (bound : Nat)
    (hBound : tokens.length ≤ bound)
    (h : StandsAhead line (definitions.flatMap Definition.tokens) tokens rest) :
    Grammar.definitions inNameSpace (bound + 1) tokens =
      .ok (definitions.map (Definition.onLine line)) := by
  induction definitions generalizing bound tokens with
  | nil =>
    obtain rfl := standsAhead_nil.mp h
    rw [Grammar.definitions, if_pos hEnd]
    rfl
  | cons definition definitions ih =>
    obtain ⟨hDefinition, hRest⟩ := List.forall_mem_cons.mp hWell
    rw [List.flatMap_cons] at h
    obtain ⟨mid, hFirst, hOthers⟩ := standsAhead_append.mp h
    obtain ⟨word, others, hTokens, -⟩ := definitionTokens_eq_cons definition
    have hRead := definition_of_ahead hDefinition hFirst
    rw [hTokens] at hFirst
    have hLength := hFirst.length_eq
    rw [List.length_cons] at hLength
    obtain ⟨bound, rfl⟩ := Nat.exists_eq_succ_of_ne_zero (show bound ≠ 0 by omega)
    have hNext := ih hRest bound (by omega) hOthers
    rw [Grammar.definitions]
    simp [isEmpty_eq_false hFirst, isAhead_eq hFirst, hRead, hNext, bind, Except.bind, pure,
      Except.pure]

/-! ## Reading files -/

theorem topLevel_of_ahead {nameSpace : Option String} {definitions : List Definition}
    (hWell : ∀ definition ∈ definitions, definition.WellFormed)
    (h : StandsAhead line (fileTokens nameSpace definitions) tokens []) :
    topLevel tokens = .ok (nameSpace, definitions.map (Definition.onLine line)) := by
  cases nameSpace with
  | none =>
    have hNone : isKeywordAhead .nameSpace tokens = false := by
      cases definitions with
      | nil =>
        obtain rfl := standsAhead_nil.mp h
        rfl
      | cons definition definitions =>
        obtain ⟨word, others, hTokens, hWord⟩ := definitionTokens_eq_cons definition
        rw [fileTokens, List.flatMap_cons, hTokens, List.cons_append] at h
        simpa [isKeywordAhead_eq h] using hWord
    have hRead := definitions_of_ahead false hWell rfl _ (Nat.le_refl _) h
    simp [topLevel, hNone, hRead, bind, Except.bind, pure, Except.pure]
  | some name =>
    obtain ⟨_, hName, hOpen⟩ := identifier_of_ahead (tail_of_ahead h)
    obtain ⟨_, hMark, hItems⟩ := symbol_of_ahead hOpen
    obtain ⟨_, hDefinitions, hClose⟩ := standsAhead_append.mp hItems
    have hRead := definitions_of_ahead true hWell (by simp [isAhead_eq hClose]) _
      (Nat.le_refl _) hDefinitions
    simp [topLevel, isKeywordAhead_eq h, hName, hMark, hRead, bind, Except.bind, pure, Except.pure]

end Grammar

/-- A written file is parsed as the definitions that were written, each behind the types written in
place within it. -/
theorem parse_written (ink : Ink) (filename : String) (nameSpace : Option String)
    (definitions : List Definition) (hName : ∀ name ∈ nameSpace, isIdentifier name = true)
    (hDefinitions : ∀ definition ∈ definitions, definition.WellFormed) :
    parse ink filename (written (fileTokens nameSpace definitions)) =
        .ok ⟨filename, nameSpace,
          (definitions.map (Definition.onLine 1)).flatMap Definition.unfolded⟩ ∧
      ∀ definition : Definition,
        definition.unfolded = definition.held.flatMap Definition.unfolded ++ [definition] := by
  refine ⟨?_, Definition.unfolded_eq⟩
  have hPrinted := Grammar.isPrinted_fileTokens hName hDefinitions
  obtain ⟨tokens, last, hTokenize, hKinds, hLines, hLast⟩ := tokenize_written hPrinted.isWritable
  have hFinish : ∀ token ∈ tokens, token.kind ≠ .finish := by
    intro token hToken hKind
    have hMem : token.kind ∈ fileTokens nameSpace definitions :=
      hKinds ▸ List.mem_map_of_mem hToken
    have hWritable := hPrinted.isWritable token.kind hMem
    rw [hKind] at hWritable
    cases hWritable
  have hRead : Grammar.topLevel tokens = .ok (nameSpace, definitions.map (Definition.onLine 1)) :=
    Grammar.topLevel_of_ahead hDefinitions
      ⟨tokens, hKinds, hLines, (List.append_nil tokens).symm⟩
  rw [parse, hTokenize]
  simp only [parseTokens, beforeEnd_append_finish hFinish hLast, hRead]
  rfl

/-- A union in which three types are written in place, each within the one before. -/
def nestedUnion : Definition :=
  let payload := inlineName "Outer" "payload"
  let inner := inlineName payload "inner"
  let deep : Field := ⟨"deep", .named "int32", .plain, 5⟩
  let leaf : Field := ⟨"leaf", .struct ⟨inlineName inner "leaf", [deep], 4⟩, .variableArray none, 4⟩
  let arms : List Arm := [⟨[.named "ONE", .default], some leaf, 4⟩]
  let field : Field := ⟨"inner", .union ⟨inner, ⟨"w", .named "Kind"⟩, arms, 3⟩, .plain, 3⟩
  .union ⟨"Outer", ⟨"v", .unsignedInt⟩,
    [⟨[.literal (-1)], none, 2⟩,
      ⟨[.literal 0], some ⟨"payload", .struct ⟨payload, [field], 2⟩, .plain, 2⟩, 2⟩], 1⟩

theorem nestedUnion_parse :
    (∀ name ∈ some "demo", isIdentifier name = true) ∧
      (∀ definition ∈ [nestedUnion], definition.WellFormed) ∧
      nestedUnion.unfolded.map Definition.name =
        ["OuterPayloadInnerLeaf", "OuterPayloadInner", "OuterPayload", "Outer"] ∧
      parse .plain "nested.x" (written (fileTokens (some "demo") [nestedUnion])) =
        .ok ⟨"nested.x", some "demo", (nestedUnion.onLine 1).unfolded⟩ := by
  have hName : ∀ name ∈ some "demo", isIdentifier name = true := by
    rintro _ ⟨⟩
    decide
  have hWell : nestedUnion.WellFormed := by
    have hKind : isIdentifier "Kind" = true := by decide
    refine .union (by decide) ⟨by decide, trivial⟩ (List.forall_mem_cons.mpr
      ⟨.void (by decide) (by decide), List.forall_mem_singleton.mpr ?_⟩)
    refine .field (by decide) (by decide) ?_
    refine .struct (by decide) trivial (List.forall_mem_singleton.mpr ?_)
    refine .union (by decide) trivial ⟨by decide, hKind⟩
      (List.forall_mem_singleton.mpr (.field (by decide) (by decide) ?_))
    refine .struct (by decide) (by simp [Shape.FitsInline]) (List.forall_mem_singleton.mpr ?_)
    exact .named (by decide) (.inl (by decide)) trivial
  have hDefinitions : ∀ definition ∈ [nestedUnion], definition.WellFormed := by
    simpa using hWell
  refine ⟨hName, hDefinitions, by decide, ?_⟩
  have hParse := (parse_written .plain "nested.x" (some "demo") [nestedUnion] hName hDefinitions).1
  rw [hParse]
  rfl

end XdrBindings.Idl
