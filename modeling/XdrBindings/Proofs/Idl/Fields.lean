import XdrBindings.Proofs.Idl.Nesting

/-!
# Fields, structures and unions read their languages

Types written in place nest, so the rules for fields and arms read their languages by induction on
the bound for the depth of nesting.

## Main results

* `field_reads` — a field is read as soon as the bound is not below the number of tokens ahead.
* `struct_reads`, `union_reads` — structures and unions are read, whatever follows.
-/

namespace XdrBindings.Idl.Grammar

open scoped Computability

variable {α : Type} {words follow : Language TokenKind} {tokens rest : List Token}

/-! ## Unions -/

theorem switchType_reads :
    Reads (Words.keyword .int + Words.keyword .unsigned * Words.keyword .int + Words.keyword .bool +
      Words.identifier) follow tokens (switchType tokens) := by
  refine .of_iff fun rest => ?_
  simp only [takes_add, takes_keyword, takes_keyword_mul, Words.identifier, takes_oneOf]
  rcases tokens with _ | ⟨⟨kind, text, position, span⟩, others⟩
  · simp [switchType, isKeywordAhead]
  cases kind with
  | keyword word =>
    cases word
    case unsigned =>
      rcases others with _ | ⟨token, others⟩
      · simp [switchType, keyword, isKeywordAhead]
      · by_cases hInt : token.kind = .keyword .int <;>
          simp [switchType, keyword, isKeywordAhead, hInt]
    all_goals simp [switchType, isKeywordAhead]
  | _ => simp [switchType, isKeywordAhead]

theorem discriminant_reads : Reads Words.discriminant follow tokens (discriminant tokens) := by
  have hWords : Words.discriminant = Words.keyword .switch * (Words.symbol .openParen *
      ((Words.keyword .int + Words.keyword .unsigned * Words.keyword .int + Words.keyword .bool +
        Words.identifier) * (Words.identifier * (Words.symbol .closeParen * 1)))) := by
    simp only [Words.discriminant, mul_one, mul_assoc]
  unfold discriminant
  rw [hWords]
  exact keyword_reads fun _ _ => symbol_reads fun _ _ => .bind switchType_reads fun _ _ _ =>
    .bind identifier_reads fun _ _ _ => symbol_reads fun _ _ => .pure _

theorem caseValue_reads :
    Reads (Words.number + Words.identifier) follow tokens (caseValue tokens) := by
  refine .of_iff fun rest => ?_
  rcases tokens with _ | ⟨⟨kind, text, position, span⟩, others⟩
  · simp [caseValue, Words.number, Words.identifier]
  · cases kind <;> simp [caseValue, Words.number, Words.identifier]

/-- Reads one label with its colon, which must be ahead. -/
def label (tokens : List Token) : Except Fault (Read CaseLabel) :=
  if isKeywordAhead .default tokens then do
    let rest ← symbol .colon tokens.tail
    return (.default, rest)
  else do
    let rest ← keyword .case tokens
    let (label, rest) ← caseValue rest
    let rest ← symbol .colon rest
    return (label, rest)

/-- Whether a label is ahead. -/
def isLabelAhead (tokens : List Token) : Bool :=
  isKeywordAhead .default tokens || isKeywordAhead .case tokens

theorem label?_eq : label? tokens =
    if isLabelAhead tokens then some <$> label tokens else .ok none := by
  unfold label? label isLabelAhead keyword
  by_cases hDefault : isKeywordAhead .default tokens
  · simp [hDefault]
  · by_cases hCase : isKeywordAhead .case tokens
    · simp only [hDefault, hCase, Bool.false_eq_true, if_false, if_true, Bool.or_true,
        bind_pure_comp, map_bind, Functor.map_map]
      rfl
    · simp only [hDefault, hCase, Bool.false_eq_true, if_false, Bool.or_self]
      rfl

theorem labels_eq : labels tokens =
    if isLabelAhead tokens then do
      let (found, rest) ← label tokens
      let (others, rest) ← labels rest
      return (found :: others, rest)
    else .ok ([], tokens) := by
  by_cases hAhead : isLabelAhead tokens
  · have hLabel := @label?_eq tokens
    rw [if_pos hAhead] at hLabel ⊢
    rw [labels]
    cases hRead : label tokens <;> rw [hRead] at hLabel <;> split <;>
      cases hLabel.symm.trans ‹label? tokens = _› <;> rfl
  · have hLabel := @label?_eq tokens
    rw [if_neg hAhead] at hLabel ⊢
    rw [labels]
    split <;> cases hLabel.symm.trans ‹label? tokens = _›
    rfl

theorem label_reads : Reads Words.label follow tokens (label tokens) := by
  have hWords : Words.label = Words.keyword .default * (Words.symbol .colon * 1) +
      Words.keyword .case * ((Words.number + Words.identifier) * (Words.symbol .colon * 1)) := by
    simp only [Words.label, add_mul, mul_one, mul_assoc, add_comm]
  unfold label
  rw [hWords]
  refine .choice isKeywordAhead_iff (fun _ => symbol_reads fun _ _ => .pure _) ?_ (by simp)
  exact keyword_reads fun _ _ => .bind caseValue_reads fun _ _ _ => symbol_reads fun _ _ => .pure _

theorem begins_label {kinds : TokenKind → Prop} (hCase : kinds (.keyword .case))
    (hDefault : kinds (.keyword .default)) : Begins kinds Words.label := by
  refine Begins.mul (begins_add.mpr ⟨Begins.mul ?_, ?_⟩) <;> simpa

theorem isLabelAhead_of_ahead (hAhead : Ahead (Words.label * words) tokens) :
    isLabelAhead tokens := by
  have hBegins : Begins (fun kind => kind = .keyword .default ∨ kind = .keyword .case)
      Words.label := begins_label (by simp) (by simp)
  obtain ⟨token, others, rfl, hKind⟩ := hBegins.mul.of_ahead hAhead
  simpa [isLabelAhead, isKeywordAhead] using hKind

theorem not_isLabelAhead_of_ahead
    (hBegins : Begins (fun kind => kind ≠ .keyword .case ∧ kind ≠ .keyword .default) words)
    (hAhead : Ahead words tokens) : ¬isLabelAhead tokens := by
  obtain ⟨token, others, rfl, hKind⟩ := hBegins.of_ahead hAhead
  simp [isLabelAhead, isKeywordAhead, hKind]

/-- Labels are read as long as one is ahead, so none may begin what follows. -/
theorem labels_reads
    (hFollow : Begins (fun kind => kind ≠ .keyword .case ∧ kind ≠ .keyword .default) follow) :
    Reads Words.label∗ follow tokens (labels tokens) := by
  induction hLength : tokens.length using Nat.strong_induction_on generalizing tokens with
  | _ length ih =>
    rw [labels_eq, ← Language.one_add_self_mul_kstar_eq_kstar, add_comm]
    refine .ite (fun _ => ?_) (fun _ => .pure _) (fun hAhead => ?_) fun hAhead => ?_
    · refine .bind label_reads fun _ mid hTakes => ?_
      have hBegins : Begins (fun _ => True) Words.label := begins_label trivial trivial
      exact (ih mid.length (hLength ▸ hBegins.length_lt hTakes) rfl).map fun _ _ => ⟨_, rfl⟩
    · rw [mul_assoc] at hAhead
      exact isLabelAhead_of_ahead hAhead
    · rw [one_mul] at hAhead
      exact not_isLabelAhead_of_ahead hFollow hAhead

theorem begins_declaration {kinds : TokenKind → Prop} (hName : ∀ name, kinds (.identifier name))
    (hKeyword : ∀ word, word ∉ [.struct, .union, .case, .default, .void] → kinds (.keyword word)) :
    Begins kinds Words.declaration := by
  have hType : Begins kinds Words.type := by
    rw [Words.type, add_mul, one_mul]
    simp [hName, hKeyword]
  exact hType.mul.mul

/-- A field begins with the name of a type or with a keyword that begins neither an arm nor what may
stand in an arm for a field. -/
theorem begins_field {kinds : TokenKind → Prop} (hName : ∀ name, kinds (.identifier name))
    (hKeyword : ∀ word, word ∉ [.case, .default, .void] → kinds (.keyword word)) :
    Begins kinds Words.field := by
  rw [Words.field_eq]
  refine begins_add.mpr ⟨begins_add.mpr ⟨?_, ?_⟩, ?_⟩
  · exact begins_declaration hName fun word hWord => hKeyword word (by simp_all)
  · simp [mul_assoc, hKeyword]
  · simp [mul_assoc, hKeyword]

theorem not_ahead_field_nil : ¬Ahead Words.field [] := by
  intro hAhead
  have hBegins : Begins (fun _ => True) Words.field := begins_field (by simp) (by simp)
  obtain ⟨token, others, hNil, -⟩ := hBegins.of_ahead hAhead
  cases hNil

theorem begins_arm {kinds : TokenKind → Prop} (hCase : kinds (.keyword .case))
    (hDefault : kinds (.keyword .default)) : Begins kinds Words.arm := by
  rw [Words.arm_eq]
  exact (begins_label hCase hDefault).mul.mul

theorem arm_reads {field : List Token → Except Fault (Read Field)}
    (hField : ∀ part, part.length ≤ tokens.length → Reads Words.field follow part (field part)) :
    Reads Words.arm follow tokens (arm field tokens) := by
  have hWords : Words.arm = Words.label * (Words.label∗ *
      (Words.keyword .void * (Words.symbol .semicolon * 1) + Words.field)) := by
    rw [Words.arm_eq, mul_one, mul_assoc]
  unfold arm
  rw [labels_eq, hWords]
  by_cases hAhead : isLabelAhead tokens
  · simp only [hAhead, if_true, bind_assoc, pure_bind]
    refine .bind label_reads fun first mid hFirst =>
      .bind (labels_reads (Begins.mul ?_)) fun others behind hOthers => ?_
    · exact begins_add.mpr ⟨Begins.mul (by simp), begins_field (by simp) (by simp +contextual)⟩
    · have hBehind := hOthers.length_le.trans hFirst.length_le
      simp only [List.isEmpty_cons, Bool.false_eq_true, if_false]
      refine .choice isKeywordAhead_iff (fun _ => symbol_reads fun _ _ => .pure _) ?_ ?_
      · exact (hField behind hBehind).map fun _ _ => ⟨_, rfl⟩
      · exact Begins.mul (begins_field (by simp) (by simp +contextual))
  · rw [if_neg hAhead]
    exact .error fun h => hAhead (isLabelAhead_of_ahead h)

/-! ## Fields -/

theorem structItem_reads {field : List Token → Except Fault (Read Field)}
    (hField : Reads Words.field follow tokens (field tokens)) :
    Reads Words.field follow tokens (structItem field tokens) := by
  unfold structItem
  split
  · rename_i hEmpty
    rw [List.isEmpty_iff.mp hEmpty]
    exact .error not_ahead_field_nil
  · exact hField

theorem inlineTail_reads {type : String} :
    Reads Words.inlineTail follow tokens (inlineTail type tokens) := by
  have hWords : Words.inlineTail =
      Words.identifier * (Words.suffix * (Words.symbol .semicolon * 1)) := by
    simp only [Words.inlineTail, mul_one, mul_assoc]
  unfold inlineTail
  rw [hWords]
  exact .bind identifier_reads fun _ _ _ => .bind (suffix_reads (by simp) (by simp))
    fun _ _ _ => symbol_reads fun _ _ => .pure _

/-- The words of a field in the order in which the rule tries them. -/
theorem field_eq_choices : Words.field =
    Words.keyword .struct * (Words.symbol .openBrace *
      (Words.field∗ * Words.symbol .closeBrace * Words.inlineTail)) +
    (Words.keyword .union * (Words.discriminant * (Words.symbol .openBrace *
      (Words.arm∗ * Words.symbol .closeBrace * Words.inlineTail))) + Words.declaration) := by
  nth_rewrite 1 [Words.field_eq]
  simp only [Words.braced, mul_assoc]
  ac_rfl

/-- The tokens ahead bound the depth of nesting, because each level takes at least one. -/
theorem field_reads (depth : Nat) (parent : String) (tokens : List Token)
    (hDepth : tokens.length ≤ depth) :
    Reads Words.field follow tokens (field depth parent tokens) := by
  induction depth generalizing parent tokens follow with
  | zero =>
    rw [List.eq_nil_of_length_eq_zero (Nat.le_zero.mp hDepth)]
    exact .error not_ahead_field_nil
  | succ depth ih =>
    unfold field
    rw [field_eq_choices]
    refine .ite (fun hCondition => ?_)
      (fun _ => .choice isKeywordAhead_iff (fun hUnion => ?_) ?_ ?_)
      (fun hAhead => ?_) fun hAhead hCondition => ?_
    · -- A structure written in place.
      obtain ⟨hStruct, hOpen⟩ := Bool.and_eq_true_iff.mp hCondition
      refine .behind (isKeywordAhead_iff.mp hStruct) (.behind (isAhead_iff.mp hOpen) ?_)
      refine .lookAhead (nameBehind_of_ahead isLevel_field.kstar) fun name => ?_
      refine .bind (body_reads (begins_field (by simp) (by simp)) fun part hPart =>
        structItem_reads (ih _ _ ?_)) fun _ _ _ => inlineTail_reads.map fun _ _ => ⟨_, rfl⟩
      simp only [List.length_tail] at hPart
      omega
    · -- A union written in place.
      refine .bind discriminant_reads fun switch mid hSwitch => symbol_reads fun inner hInner => ?_
      refine .lookAhead (nameBehind_of_ahead isLevel_arm.kstar) fun name => ?_
      refine .bind (body_reads (begins_arm (by simp) (by simp)) fun part hPart =>
        arm_reads fun content hContent => ih _ _ ?_)
        fun _ _ _ => inlineTail_reads.map fun _ _ => ⟨_, rfl⟩
      have := hSwitch.length_le
      omega
    · exact declarator_reads.map fun _ _ => ⟨_, rfl⟩
    · exact Begins.mul (begins_declaration (by simp) (by simp +contextual))
    · obtain ⟨rest, hTakes⟩ := hAhead
      rw [mul_assoc, mul_assoc, takes_keyword_mul, takes_symbol_mul] at hTakes
      exact Bool.and_eq_true_iff.mpr ⟨hTakes.1, hTakes.2.1⟩
    · have hBegins : Begins (· ≠ .keyword .struct) (Words.keyword .union *
          (Words.discriminant * (Words.symbol .openBrace *
            (Words.arm∗ * Words.symbol .closeBrace * Words.inlineTail))) + Words.declaration) :=
        begins_add.mpr ⟨Begins.mul (by simp), begins_declaration (by simp) (by simp +contextual)⟩
      exact hAhead.not_of_begins hBegins.mul
        (isKeywordAhead_iff.mp (Bool.and_eq_true_iff.mp hCondition).1)

/-! ## Structures and unions -/

theorem struct_reads {line : Nat} : Reads Words.struct follow tokens (struct line tokens) := by
  have hWords : Words.struct = Words.identifier * (Words.symbol .openBrace *
      (Words.field∗ * Words.symbol .closeBrace * (Words.symbol .semicolon * 1))) := by
    simp only [Words.struct, Words.braced, mul_one, mul_assoc]
  unfold struct
  rw [hWords]
  exact .bind identifier_reads fun _ _ _ => symbol_reads fun _ _ =>
    .bind (body_reads (begins_field (by simp) (by simp)) fun part hPart =>
      structItem_reads (field_reads _ _ part hPart)) fun _ _ _ => symbol_reads fun _ _ => .pure _

theorem union_reads {line : Nat} : Reads Words.union follow tokens (union line tokens) := by
  have hWords : Words.union = Words.identifier * (Words.discriminant * (Words.symbol .openBrace *
      (Words.arm∗ * Words.symbol .closeBrace * (Words.symbol .semicolon * 1)))) := by
    simp only [Words.union, Words.braced, mul_one, mul_assoc]
  unfold union
  rw [hWords]
  exact .bind identifier_reads fun _ _ _ => .bind discriminant_reads fun _ _ _ =>
    symbol_reads fun _ _ => .bind (body_reads (begins_arm (by simp) (by simp)) fun part hPart =>
      arm_reads fun content hContent => field_reads _ _ content (hContent.trans hPart))
      fun _ _ _ => symbol_reads fun _ _ => .pure _

end XdrBindings.Idl.Grammar
