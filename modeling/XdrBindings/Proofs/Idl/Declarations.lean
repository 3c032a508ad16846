import XdrBindings.Idl.Grammar.Declarator
import XdrBindings.Proofs.Idl.Reads

/-!
# Declarators, constants and enumerations read their languages

Each rule is read along its definition.  Brackets behind a name and the comma behind a value may be
missing, so these rules need that nothing of the sort follows.

## Main results

* `declarator_reads`, `constant_reads`, `enum_reads` — the rules read their languages, whatever
  follows.
-/

namespace XdrBindings.Idl.Grammar

open scoped Computability

variable {follow : Language TokenKind} {tokens : List Token}

/-! ## Single tokens -/

theorem identifier_reads : Reads Words.identifier follow tokens (identifier tokens) := by
  refine .of_iff fun rest => ?_
  rcases tokens with _ | ⟨⟨kind, text, position, span⟩, others⟩
  · simp [identifier, Words.identifier]
  · cases kind <;> simp [identifier, Words.identifier]

theorem number_reads : Reads Words.number follow tokens (number tokens) := by
  refine .of_iff fun rest => ?_
  rcases tokens with _ | ⟨⟨kind, text, position, span⟩, others⟩
  · simp [number, Words.number]
  · cases kind <;> simp [number, Words.number]

theorem size_reads : Reads Words.size follow tokens (size tokens) := by
  refine .of_iff fun rest => ?_
  rcases tokens with _ | ⟨⟨kind, text, position, span⟩, others⟩
  · simp [size, Words.size, Words.identifier]
  · cases kind with
    | number value =>
      by_cases hSign : 0 ≤ value <;> simp [size, Words.size, Words.identifier, hSign]
    | _ => simp [size, Words.size, Words.identifier]

theorem enumSource_reads :
    Reads (Words.number + Words.identifier) follow tokens (enumSource tokens) := by
  refine .of_iff fun rest => ?_
  rcases tokens with _ | ⟨⟨kind, text, position, span⟩, others⟩
  · simp [enumSource, Words.number, Words.identifier]
  · cases kind <;> simp [enumSource, Words.number, Words.identifier]

theorem typeName_reads : Reads Words.type follow tokens (typeName tokens) := by
  refine .of_iff fun rest => ?_
  simp only [Words.type, add_mul, one_mul, takes_add, takes_keyword, takes_keyword_mul,
    Words.identifier, takes_oneOf]
  rcases tokens with _ | ⟨⟨kind, text, position, span⟩, others⟩
  · simp [typeName, isKeywordAhead]
  cases kind with
  | keyword word =>
    cases word
    case unsigned =>
      -- Only here a second token decides.
      rcases others with _ | ⟨⟨kind, text, position, span⟩, others⟩
      · simp [typeName, isKeywordAhead]
      · cases kind with
        | keyword word => cases word <;> simp [typeName, isKeywordAhead]
        | _ => simp [typeName, isKeywordAhead]
    all_goals simp [typeName, primitiveOf?, isKeywordAhead]
  | _ => simp [typeName, isKeywordAhead]

/-! ## Declarators -/

/-- Brackets are read whenever an opening one is ahead, so none may begin what follows. -/
theorem suffix_reads {type : String} (hBracket : Begins (· ≠ .symbol .openBracket) follow)
    (hAngle : Begins (· ≠ .symbol .openAngle) follow) :
    Reads Words.suffix follow tokens (suffix type tokens) := by
  have hWords : Words.suffix =
      Words.symbol .openBracket * (Words.size * (Words.symbol .closeBracket * 1)) +
        (Words.symbol .openAngle *
          (Words.symbol .closeAngle * 1 + Words.size * (Words.symbol .closeAngle * 1)) + 1) := by
    simp only [Words.suffix, mul_one, mul_add, mul_assoc]
    ac_rfl
  unfold suffix
  rw [hWords]
  refine .choice isAhead_iff (fun _ => ?_) (.choice isAhead_iff (fun _ => ?_) (.pure _) ?_) ?_
  · exact .bind size_reads fun _ _ _ => symbol_reads fun _ _ => .pure _
  · refine .choice isAhead_iff (fun _ => .pure _) ?_ (by simp [mul_assoc])
    exact .bind size_reads fun _ _ _ => symbol_reads fun _ _ => .pure _
  · simpa using hAngle
  · rw [add_mul, one_mul]
    simpa using hBracket

theorem declarator_reads : Reads Words.declaration follow tokens (declarator tokens) := by
  have hWords : Words.declaration = Words.type *
      (Words.symbol .star * (Words.identifier * (Words.symbol .semicolon * 1)) +
        Words.identifier * (Words.suffix * (Words.symbol .semicolon * 1))) := by
    simp only [Words.declaration, Words.declarator, mul_one, mul_add, add_mul, mul_assoc]
  unfold declarator
  rw [hWords]
  refine .bind typeName_reads fun type mid _ => .choice isAhead_iff (fun _ => ?_) ?_ (by simp)
  · exact .bind identifier_reads fun _ _ _ => symbol_reads fun _ _ => .pure _
  · exact .bind identifier_reads fun _ _ _ => .bind (suffix_reads (by simp) (by simp))
      fun _ _ _ => symbol_reads fun _ _ => .pure _

/-! ## Constants, typedefs and enumerations -/

theorem constant_reads {line : Nat} :
    Reads Words.constant follow tokens (constant line tokens) := by
  have hWords : Words.constant = Words.identifier *
      (Words.symbol .assign * (Words.number * (Words.symbol .semicolon * 1))) := by
    simp only [Words.constant, mul_one, mul_assoc]
  unfold constant
  rw [hWords]
  exact .bind identifier_reads fun _ _ _ => symbol_reads fun _ _ =>
    .bind number_reads fun _ _ _ => symbol_reads fun _ _ => .pure _

theorem typedef_reads {line : Nat} : Reads Words.declaration follow tokens (typedef line tokens) :=
  declarator_reads.map fun _ _ => ⟨_, rfl⟩

/-- A comma is taken whenever it is ahead, so none may begin what follows. -/
theorem enumValue_reads (hComma : Begins (· ≠ .symbol .comma) follow) :
    Reads Words.enumValue follow tokens (enumValue tokens) := by
  have hWords : Words.enumValue = Words.identifier * (Words.symbol .assign *
      ((Words.number + Words.identifier) * (Words.symbol .comma * 1 + 1))) := by
    simp only [Words.enumValue, mul_one, mul_assoc, add_comm 1 (Words.symbol _)]
  unfold enumValue
  rw [hWords]
  refine .bind identifier_reads fun _ _ _ => symbol_reads fun _ _ =>
    .bind enumSource_reads fun _ _ _ => ?_
  change Reads _ _ _ (pure (_, ite ..))
  rw [apply_ite (Prod.mk _), apply_ite pure]
  exact .choice isAhead_iff (fun _ => .pure _) (.pure _) (by simpa using hComma)

theorem enum_reads {line : Nat} : Reads Words.enum follow tokens (enum line tokens) := by
  have hWords : Words.enum = Words.identifier * (Words.symbol .openBrace *
      (Words.enumValue∗ * Words.symbol .closeBrace * (Words.symbol .semicolon * 1))) := by
    simp only [Words.enum, Words.braced, mul_one, mul_assoc]
  unfold enum
  rw [hWords]
  refine .bind identifier_reads fun _ _ _ => symbol_reads fun _ _ =>
    .bind (body_reads ?_ fun _ _ => enumValue_reads ?_) fun _ _ _ => symbol_reads fun _ _ => .pure _
  · simp [Words.enumValue, mul_assoc]
  · exact .kstar_mul (by simp [Words.enumValue, mul_assoc]) (by simp)

end XdrBindings.Idl.Grammar
