import XdrBindings.Proofs.Idl.Printed

/-!
# Fields and unions read what is printed

Fields and arms hold each other, so both are read by recursion on the proof that they can be
written.  The name of a type written in place is found from in front of its body, because what is
printed closes the braces that it opens.

## Main results

* `isPrinted_field`, `isPrinted_arm` — what is printed can be written and closes its braces.
* `field_of_ahead`, `arm_of_ahead` — fields and arms are read, with what is written in place.
* `struct_of_ahead`, `union_of_ahead` — structures and unions are read.
-/

namespace XdrBindings.Idl.Grammar

variable {line : Nat} {kind : TokenKind} {kinds front back : List TokenKind}
  {tokens rest : List Token}

/-! ## What is printed -/

/-- What is printed can be written, and it closes the braces that it opens. -/
structure IsPrinted (kinds : List TokenKind) : Prop where
  isWritable : ∀ kind ∈ kinds, kind.isWritable = true
  isLevel : IsLevel {kinds}

theorem isPrinted_nil : IsPrinted [] := ⟨by simp, isLevel_one⟩

theorem IsPrinted.append (hFront : IsPrinted front) (hBack : IsPrinted back) :
    IsPrinted (front ++ back) where
  isWritable := List.forall_mem_append.mpr ⟨hFront.isWritable, hBack.isWritable⟩
  isLevel := (hFront.isLevel.mul hBack.isLevel).mono
    (Set.singleton_subset_iff.mpr (Language.append_mem_mul rfl rfl))

/-- Tokens other than braces are printed as long as each can be written. -/
theorem isPrinted_of_forall (h : ∀ kind ∈ kinds, kind.isWritable = true ∧
    kind ≠ .symbol .openBrace ∧ kind ≠ .symbol .closeBrace) : IsPrinted kinds := by
  induction kinds with
  | nil => exact isPrinted_nil
  | cons kind kinds ih =>
    obtain ⟨⟨hWritable, hOpen, hClose⟩, hOthers⟩ := List.forall_mem_cons.mp h
    have hFirst : IsPrinted [kind] := by
      refine ⟨by simpa using hWritable, ?_⟩
      have hLevel : IsLevel (Words.oneOf (· = kind)) := isLevel_oneOf hOpen.symm hClose.symm
      exact hLevel.mono (Set.singleton_subset_iff.mpr ⟨kind, rfl, rfl⟩)
    exact hFirst.append (ih hOthers)

theorem IsPrinted.braced (h : IsPrinted kinds) : IsPrinted (braced kinds) where
  isWritable kind hKind := by
    simp only [Idl.braced, List.mem_cons, List.mem_append, List.not_mem_nil, or_false] at hKind
    rcases hKind with rfl | hMem | rfl
    · rfl
    · exact h.isWritable kind hMem
    · rfl
  isLevel := by
    have hMark (mark : Symbol) : [.symbol mark] ∈ Words.symbol mark := ⟨_, rfl, rfl⟩
    have hKinds : kinds ∈ ({kinds} : Language TokenKind) := rfl
    have hWord : Idl.braced kinds ∈ Words.braced {kinds} := Language.append_mem_mul
      (Language.append_mem_mul (hMark .openBrace) hKinds) (hMark .closeBrace)
    exact h.isLevel.braced.mono (Set.singleton_subset_iff.mpr hWord)

theorem IsPrinted.flatMap {α : Type} {print : α → List TokenKind} {values : List α}
    (h : ∀ value ∈ values, IsPrinted (print value)) : IsPrinted (values.flatMap print) := by
  induction values with
  | nil => exact isPrinted_nil
  | cons value values ih =>
    obtain ⟨hValue, hOthers⟩ := List.forall_mem_cons.mp h
    rw [List.flatMap_cons]
    exact hValue.append (ih hOthers)

/-- The name behind a body that is printed is found. -/
theorem nameBehind_of_printed {name : String} {shape : Shape} (hShape : shape.FitsInline)
    (hKinds : IsPrinted kinds)
    (h : StandsAhead line (kinds ++ .symbol .closeBrace :: (shape.declared name ++ back)) tokens
      rest) : nameBehind 0 tokens = .ok name := by
  rw [Shape.declared_of_ne hShape.ne_optional] at h
  obtain ⟨_, hFront, hClose⟩ := standsAhead_append.mp h
  obtain ⟨_, _, _, behind, rfl, -, hName⟩ := standsAhead_cons.mp hClose
  obtain ⟨_, hRead, -⟩ := identifier_of_ahead hName
  rw [hKinds.isLevel _ _ hFront.takes, nameBehind_close_zero rfl, hRead]
  rfl

/-! ## Pieces of declarations -/

theorem isPrinted_typeTokens {name : String} (h : IsTypeName name) :
    IsPrinted (typeTokens name) := by
  unfold typeTokens
  split
  · rename_i primitive _
    cases primitive <;> exact isPrinted_of_forall (by decide)
  · rename_i hFind
    rcases h with hName | ⟨primitive, -, rfl⟩
    · exact isPrinted_of_forall (by simp [hName])
    · have hAll : primitive ∈ Primitive.all := by cases primitive <;> decide
      simpa using List.find?_eq_none.mp hFind primitive hAll

theorem isWritable_size {size : Size} (h : size.WellFormed) : size.token.isWritable = true := by
  cases size with
  | literal value =>
    have hValue : value < 2 ^ 63 := h
    show fitsWord value = true
    rw [fitsWord_iff]
    omega
  | named name => exact h

/-- A number or a name in brackets. -/
theorem isPrinted_bracketed {size : Size} {opening closing : Symbol} (hSize : size.WellFormed)
    (hOpening : opening ≠ .openBrace ∧ opening ≠ .closeBrace)
    (hClosing : closing ≠ .openBrace ∧ closing ≠ .closeBrace) :
    IsPrinted [.symbol opening, size.token, .symbol closing] := by
  have hToken (mark : Symbol) : size.token ≠ .symbol mark := by cases size <;> nofun
  refine isPrinted_of_forall ?_
  simp [isWritable_size hSize, hToken, hOpening, hClosing]

theorem isPrinted_declared {type name : String} {shape : Shape} (hName : isIdentifier name = true)
    (hShape : shape.Fits type) : IsPrinted (shape.declared name) := by
  have hFirst : IsPrinted [.identifier name] :=
    isPrinted_of_forall (by simp [hName])
  have hStar : IsPrinted [.symbol .star] := isPrinted_of_forall (by decide)
  cases shape with
  | plain => exact hFirst
  | optional => exact hStar.append hFirst
  | fixedArray size =>
    exact hFirst.append (isPrinted_bracketed hShape (by decide) (by decide))
  | variableArray bound | boundedString bound =>
    cases bound with
    | none => exact hFirst.append (isPrinted_of_forall (by decide))
    | some size =>
      exact hFirst.append (isPrinted_bracketed (hShape.2 size rfl) (by decide) (by decide))

theorem isPrinted_label {label : CaseLabel} (h : label.WellFormed) : IsPrinted label.tokens := by
  cases label with
  | default => exact isPrinted_of_forall (by decide)
  | named name =>
    have hName : isIdentifier name = true := h
    exact isPrinted_of_forall (by simp [CaseLabel.tokens, hName])
  | literal value =>
    have hValue : fitsWord value = true := h
    exact isPrinted_of_forall (by simp [CaseLabel.tokens, hValue])

theorem isPrinted_labels {labels : List CaseLabel} (h : ∀ label ∈ labels, label.WellFormed) :
    IsPrinted (labels.flatMap CaseLabel.tokens) :=
  .flatMap fun label hLabel => isPrinted_label (h label hLabel)

theorem isPrinted_discriminant {switch : Discriminant} (h : switch.WellFormed) :
    IsPrinted switch.tokens := by
  have hName := h.name
  have hType := h.type
  obtain ⟨name, type⟩ := switch
  cases type with
  | named type =>
    have hWord : isIdentifier type = true := hType
    exact isPrinted_of_forall (by simp [Discriminant.tokens, SwitchType.tokens, hName, hWord])
  | _ => exact isPrinted_of_forall (by simp [Discriminant.tokens, SwitchType.tokens, hName])

/-! ## Fields and arms -/

theorem isPrinted_fields {fields : List Field} (h : ∀ field ∈ fields, IsPrinted field.tokens) :
    IsPrinted (tokensOfFields fields) := by
  rw [tokensOfFields_eq]
  exact .flatMap h

theorem isPrinted_arms {arms : List Arm} (h : ∀ arm ∈ arms, IsPrinted arm.tokens) :
    IsPrinted (tokensOfArms arms) := by
  rw [tokensOfArms_eq]
  exact .flatMap h

/-- What is printed in front of a body and behind it. -/
theorem isPrinted_inline {name : String} {shape : Shape} (hName : isIdentifier name = true)
    (hShape : shape.FitsInline) (hFront : IsPrinted front) (hKinds : IsPrinted kinds) :
    IsPrinted (front ++ braced kinds ++ (shape.declared name ++ [.symbol .semicolon])) := by
  have hMark : IsPrinted [.symbol .semicolon] := isPrinted_of_forall (by decide)
  -- the shape fits every type but strings, and what is printed does not depend on the type
  have hFits : shape.Fits Primitive.bool.name := hShape.fits (by decide)
  exact (hFront.append hKinds.braced).append ((isPrinted_declared hName hFits).append hMark)

mutual

/-- What is printed for a field can be written and closes its braces. -/
theorem isPrinted_field {parent : String} {field : Field} :
    field.WellFormed parent → IsPrinted field.tokens
  | .named hName hType hShape => by
    have hMark : IsPrinted [.symbol .semicolon] := isPrinted_of_forall (by decide)
    exact (isPrinted_typeTokens hType).append ((isPrinted_declared hName hShape).append hMark)
  | .struct hName hShape hFields => by
    have hItems := isPrinted_fields fun field hField => isPrinted_field (hFields field hField)
    have hFront : IsPrinted [.keyword .struct] := isPrinted_of_forall (by decide)
    exact isPrinted_inline hName hShape hFront hItems
  | .union hName hShape hSwitch hArms => by
    have hItems := isPrinted_arms fun arm hArm => isPrinted_arm (hArms arm hArm)
    have hUnion : IsPrinted [.keyword .union] := isPrinted_of_forall (by decide)
    have hFront := hUnion.append (isPrinted_discriminant hSwitch)
    exact isPrinted_inline hName hShape hFront hItems

/-- What is printed for an arm can be written and closes its braces. -/
theorem isPrinted_arm {parent : String} {arm : Arm} : arm.WellFormed parent → IsPrinted arm.tokens
  | .void _ hLabels => by
    have hVoid : IsPrinted [.keyword .void, .symbol .semicolon] := isPrinted_of_forall (by decide)
    exact (isPrinted_labels hLabels).append hVoid
  | .field _ hLabels hContent => (isPrinted_labels hLabels).append (isPrinted_field hContent)

end

/-! ## Reading fields and arms -/

/-- A field begins with a name or with a reserved word that begins neither an arm nor what may stand
in an arm for a field. -/
theorem fieldTokens_eq_cons {parent : String} {field : Field} (h : field.WellFormed parent) :
    ∃ kind others, field.tokens = kind :: others ∧ ((∃ word, kind = .identifier word) ∨
      ∃ word, kind = .keyword word ∧ word ∉ [.case, .default, .void]) := by
  cases h with
  | named hName hType hShape =>
    obtain ⟨kind, others, hTokens, hKind⟩ := typeTokens_eq_cons hType
    refine ⟨kind, _, congrArg (· ++ _) hTokens, hKind.imp_right ?_⟩
    rintro ⟨word, rfl, hWord⟩
    exact ⟨word, rfl, by simp_all⟩
  | struct => exact ⟨_, _, rfl, .inr ⟨.struct, rfl, by decide⟩⟩
  | union => exact ⟨_, _, rfl, .inr ⟨.union, rfl, by decide⟩⟩

/-- An arm begins with a label. -/
theorem armTokens_eq_cons {parent : String} {arm : Arm} (h : arm.WellFormed parent) :
    ∃ kind others, arm.tokens = kind :: others ∧
      (kind = .keyword .case ∨ kind = .keyword .default) := by
  have hLabels {labels : List CaseLabel} (hSome : labels ≠ []) (behind : List TokenKind) :
      ∃ kind others, labels.flatMap CaseLabel.tokens ++ behind = kind :: others ∧
        (kind = .keyword .case ∨ kind = .keyword .default) := by
    obtain ⟨label, labels, rfl⟩ := List.exists_cons_of_ne_nil hSome
    cases label with
    | default => exact ⟨_, _, rfl, .inr rfl⟩
    | _ => exact ⟨_, _, rfl, .inl rfl⟩
  cases h with
  | void hSome => exact hLabels hSome _
  | field hSome => exact hLabels hSome _

theorem length_le_flatMap {α : Type} (print : α → List TokenKind) {value : α} {values : List α}
    (h : value ∈ values) : (print value).length ≤ (values.flatMap print).length := by
  rw [List.flatMap_def]
  exact (List.sublist_flatten_of_mem (List.mem_map_of_mem h)).length_le

/-- The fields of a structure are read up to the closing brace, where each of them is read. -/
theorem fields_of_ahead {parent : String} {fields : List Field} {depth : Nat}
    (hFields : ∀ field ∈ fields, field.WellFormed parent)
    (hRead : ∀ field ∈ fields, ∀ {tokens rest : List Token}, field.tokens.length ≤ depth →
      StandsAhead line field.tokens tokens rest →
        Grammar.field depth parent tokens = .ok (field.onLine line, rest))
    (hDepth : (fields.flatMap Field.tokens).length ≤ depth)
    (h : StandsAhead line (fields.flatMap Field.tokens ++ .symbol .closeBrace :: kinds) tokens
      rest) :
    ∃ mid, body (structItem (field depth parent)) tokens =
        .ok (fields.map (Field.onLine line), mid) ∧
      StandsAhead line kinds mid rest := by
  refine body_of_ahead (fun field hField tokens rest hAhead => ?_) (fun field hField => ?_) h
  · have hLength := length_le_flatMap Field.tokens hField
    have hRule := hRead field hField (hLength.trans hDepth) hAhead
    obtain ⟨kind, others, hTokens, -⟩ := fieldTokens_eq_cons (hFields field hField)
    rw [hTokens] at hAhead
    rw [structItem, isEmpty_eq_false hAhead]
    exact hRule
  · obtain ⟨kind, others, hTokens, hKind⟩ := fieldTokens_eq_cons (hFields field hField)
    refine ⟨kind, others, hTokens, ?_⟩
    rcases hKind with ⟨_, rfl⟩ | ⟨_, rfl, -⟩ <;> nofun

/-- The arms of a union are read up to the closing brace, where each of them is read. -/
theorem arms_of_ahead {parent : String} {arms : List Arm} {depth : Nat}
    (hArms : ∀ arm ∈ arms, arm.WellFormed parent)
    (hRead : ∀ arm ∈ arms, ∀ {tokens rest : List Token}, arm.tokens.length ≤ depth →
      StandsAhead line arm.tokens tokens rest →
        Grammar.arm (field depth parent) tokens = .ok (arm.onLine line, rest))
    (hDepth : (arms.flatMap Arm.tokens).length ≤ depth)
    (h : StandsAhead line (arms.flatMap Arm.tokens ++ .symbol .closeBrace :: kinds) tokens rest) :
    ∃ mid, body (arm (field depth parent)) tokens = .ok (arms.map (Arm.onLine line), mid) ∧
      StandsAhead line kinds mid rest := by
  refine body_of_ahead (fun arm hArm tokens rest hAhead => ?_) (fun arm hArm => ?_) h
  · have hLength := length_le_flatMap Arm.tokens hArm
    exact hRead arm hArm (hLength.trans hDepth) hAhead
  · obtain ⟨kind, others, hTokens, hKind⟩ := armTokens_eq_cons (hArms arm hArm)
    refine ⟨kind, others, hTokens, ?_⟩
    rcases hKind with rfl | rfl <;> nofun

mutual

/-- A field is read where it is ahead, as long as the bound is not below the number of its
tokens. -/
theorem field_of_ahead {parent : String} {field : Field} : field.WellFormed parent →
    ∀ {depth : Nat} {tokens rest : List Token}, field.tokens.length ≤ depth →
      StandsAhead line field.tokens tokens rest →
        Grammar.field depth parent tokens = .ok (field.onLine line, rest)
  | .named hName hType hShape, depth, tokens, rest, hDepth, h => by
    obtain ⟨kind, others, hTokens, hKind⟩ := typeTokens_eq_cons hType
    obtain ⟨_, hRead, hRest⟩ := declarator_of_ahead hType hShape h
    obtain rfl := standsAhead_nil.mp hRest
    rw [Field.tokens, FieldType.tokens, hTokens, List.cons_append] at h hDepth
    obtain ⟨depth, rfl⟩ := Nat.exists_eq_succ_of_ne_zero (Nat.ne_zero_of_lt hDepth)
    have hNot : kind ≠ .keyword .struct ∧ kind ≠ .keyword .union := by
      rcases hKind with ⟨word, rfl⟩ | ⟨word, rfl, hWord⟩
      · exact ⟨nofun, nofun⟩
      · simp only [List.mem_cons, not_or] at hWord
        exact ⟨fun hStruct => hWord.1 (TokenKind.keyword.inj hStruct),
          fun hUnion => hWord.2.1 (TokenKind.keyword.inj hUnion)⟩
    have hLine := lineAhead_eq (List.cons_ne_nil _ _) h
    simp [Grammar.field, isKeywordAhead_eq h, hNot, hRead, hLine, Field.onLine, FieldType.onLine,
      bind, Except.bind, pure, Except.pure]
  | @Field.WellFormed.struct _ _ fields _ _ _ hName hShape hFields, depth, tokens, rest, hDepth,
      h => by
    rw [Field.tokens_struct] at h hDepth
    obtain ⟨depth, rfl⟩ := Nat.exists_eq_succ_of_ne_zero (Nat.ne_zero_of_lt hDepth)
    have hBound : (fields.flatMap Field.tokens).length ≤ depth := by
      simp only [List.length_cons, List.length_append] at hDepth
      omega
    have hOpen := tail_of_ahead h
    have hInner := tail_of_ahead hOpen
    -- the name is looked up while the body is still ahead
    have hItems : IsPrinted (fields.flatMap Field.tokens) :=
      .flatMap fun field hField => isPrinted_field (hFields field hField)
    have hBehind := nameBehind_of_printed hShape hItems hInner
    obtain ⟨_, hBody, hTail⟩ := fields_of_ahead hFields
      (fun field hField => field_of_ahead (hFields field hField)) hBound hInner
    obtain ⟨_, hRead, hRest⟩ := inlineTail_of_ahead (inlineName_ne_string parent hName) hShape hTail
    obtain rfl := standsAhead_nil.mp hRest
    have hLine := lineAhead_eq (List.cons_ne_nil _ _) h
    simp [Grammar.field, isKeywordAhead_eq h, isAhead_eq hOpen, hBehind, hBody, hRead, hLine,
      Field.onLine, FieldType.onLine, Struct.onLine, fieldsOnLine_eq, bind, Except.bind, pure,
      Except.pure]
  | @Field.WellFormed.union _ _ _ arms _ _ _ hName hShape hSwitch hArms, depth, tokens, rest,
      hDepth, h => by
    rw [Field.tokens_union] at h hDepth
    obtain ⟨depth, rfl⟩ := Nat.exists_eq_succ_of_ne_zero (Nat.ne_zero_of_lt hDepth)
    have hBound : (arms.flatMap Arm.tokens).length ≤ depth := by
      simp only [List.length_cons, List.length_append] at hDepth
      omega
    obtain ⟨_, hDiscriminant, hOpen⟩ := discriminant_of_ahead (tail_of_ahead h)
    obtain ⟨_, hMark, hInner⟩ := symbol_of_ahead hOpen
    -- the name is looked up while the body is still ahead
    have hItems : IsPrinted (arms.flatMap Arm.tokens) :=
      .flatMap fun arm hArm => isPrinted_arm (hArms arm hArm)
    have hBehind := nameBehind_of_printed hShape hItems hInner
    obtain ⟨_, hBody, hTail⟩ := arms_of_ahead hArms
      (fun arm hArm => arm_of_ahead (hArms arm hArm)) hBound hInner
    obtain ⟨_, hRead, hRest⟩ := inlineTail_of_ahead (inlineName_ne_string parent hName) hShape hTail
    obtain rfl := standsAhead_nil.mp hRest
    have hLine := lineAhead_eq (List.cons_ne_nil _ _) h
    simp [Grammar.field, isKeywordAhead_eq h, hDiscriminant, hMark, hBehind, hBody, hRead, hLine,
      Field.onLine, FieldType.onLine, Union.onLine, armsOnLine_eq, bind, Except.bind, pure,
      Except.pure]

/-- An arm is read where it is ahead, as long as the bound is not below the number of its tokens. -/
theorem arm_of_ahead {parent : String} {arm : Arm} : arm.WellFormed parent →
    ∀ {depth : Nat} {tokens rest : List Token}, arm.tokens.length ≤ depth →
      StandsAhead line arm.tokens tokens rest →
        Grammar.arm (Grammar.field depth parent) tokens = .ok (arm.onLine line, rest)
  | .void hSome hLabels, depth, tokens, rest, hDepth, h => by
    have hLine := lineAhead_eq (List.append_ne_nil_of_right_ne_nil _ (List.cons_ne_nil _ _)) h
    obtain ⟨_, hRead, hVoid⟩ := labels_of_ahead (by decide) (by decide) h
    obtain ⟨_, hEnd, hRest⟩ := symbol_of_ahead (tail_of_ahead hVoid)
    obtain rfl := standsAhead_nil.mp hRest
    simp [Grammar.arm, hLine, hRead, hSome, isKeywordAhead_eq hVoid, hEnd, Arm.onLine, bind,
      Except.bind, pure, Except.pure]
  | @Arm.WellFormed.field _ _ content _ hSome hLabels hContent, depth, tokens, rest, hDepth, h => by
    obtain ⟨kind, others, hTokens, hKind⟩ := fieldTokens_eq_cons hContent
    have hNot : kind ≠ .keyword .case ∧ kind ≠ .keyword .default ∧ kind ≠ .keyword .void := by
      rcases hKind with ⟨word, rfl⟩ | ⟨word, rfl, hWord⟩
      · exact ⟨nofun, nofun, nofun⟩
      · simpa using hWord
    rw [Arm.tokens] at h hDepth
    -- the labels take none of the bound that the content needs
    have hLength : content.tokens.length ≤ depth := by
      rw [List.length_append] at hDepth
      omega
    rw [hTokens] at h
    have hLine := lineAhead_eq (List.append_ne_nil_of_right_ne_nil _ (List.cons_ne_nil _ _)) h
    obtain ⟨_, hRead, hField⟩ := labels_of_ahead hNot.1 hNot.2.1 h
    have hFound := field_of_ahead hContent hLength (hTokens ▸ hField)
    simp [Grammar.arm, hLine, hRead, hSome, isKeywordAhead_eq hField, hNot, hFound, Arm.onLine,
      bind, Except.bind, pure, Except.pure]

end

/-! ## Structures and unions -/

theorem struct_of_ahead {name : String} {fields : List Field} {inner : Nat}
    (hFields : ∀ field ∈ fields, field.WellFormed name)
    (h : StandsAhead line (.identifier name :: ((Struct.mk name fields inner).tokens ++
      .symbol .semicolon :: kinds)) tokens rest) :
    ∃ mid, Grammar.struct line tokens = .ok ((Struct.mk name fields inner).onLine line, mid) ∧
      StandsAhead line kinds mid rest := by
  obtain ⟨_, hName, hBraced⟩ := identifier_of_ahead h
  simp only [Struct.tokens, braced, tokensOfFields_eq, List.cons_append, List.append_assoc,
    List.nil_append] at hBraced
  obtain ⟨behind, hOpen, hItems⟩ := symbol_of_ahead hBraced
  have hBound : (fields.flatMap Field.tokens).length ≤ behind.length := by
    have hLength := hItems.length_eq
    rw [List.length_append] at hLength
    omega
  obtain ⟨_, hBody, hSemicolon⟩ := fields_of_ahead hFields
    (fun field hField => field_of_ahead (hFields field hField)) hBound hItems
  obtain ⟨mid, hEnd, hMid⟩ := symbol_of_ahead hSemicolon
  refine ⟨mid, ?_, hMid⟩
  simp [Grammar.struct, hName, hOpen, hBody, hEnd, Struct.onLine, fieldsOnLine_eq, bind,
    Except.bind, pure, Except.pure]

theorem union_of_ahead {name : String} {switch : Discriminant} {arms : List Arm} {inner : Nat}
    (hArms : ∀ arm ∈ arms, arm.WellFormed name)
    (h : StandsAhead line (.identifier name :: ((Union.mk name switch arms inner).tokens ++
      .symbol .semicolon :: kinds)) tokens rest) :
    ∃ mid, Grammar.union line tokens = .ok ((Union.mk name switch arms inner).onLine line, mid) ∧
      StandsAhead line kinds mid rest := by
  obtain ⟨_, hName, hSwitch⟩ := identifier_of_ahead h
  simp only [Union.tokens, braced, tokensOfArms_eq, List.cons_append, List.append_assoc,
    List.nil_append] at hSwitch
  obtain ⟨_, hDiscriminant, hBraced⟩ := discriminant_of_ahead hSwitch
  obtain ⟨behind, hOpen, hItems⟩ := symbol_of_ahead hBraced
  have hBound : (arms.flatMap Arm.tokens).length ≤ behind.length := by
    have hLength := hItems.length_eq
    rw [List.length_append] at hLength
    omega
  obtain ⟨_, hBody, hSemicolon⟩ := arms_of_ahead hArms
    (fun arm hArm => arm_of_ahead (hArms arm hArm)) hBound hItems
  obtain ⟨mid, hEnd, hMid⟩ := symbol_of_ahead hSemicolon
  refine ⟨mid, ?_, hMid⟩
  simp [Grammar.union, hName, hDiscriminant, hOpen, hBody, hEnd, Union.onLine, armsOnLine_eq, bind,
    Except.bind, pure, Except.pure]

end XdrBindings.Idl.Grammar
