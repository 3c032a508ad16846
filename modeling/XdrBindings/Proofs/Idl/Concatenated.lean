import XdrBindings.Idl.Parsing
import XdrBindings.Proofs.Idl.Moved

/-!
# Sources one behind the other

Two sources without a namespace, with a newline between them, are one source.  Its tokens are those
of the first and, further down, those of the second, and its definitions are those of the first and
then those of the second, where only the lines differ.

## Main results

* `Definition.unfolded_shift` — moving a definition moves the types written in place within it.
* `parse_concatenated` — two sources are parsed one behind the other.
-/

namespace XdrBindings.Idl

/-! ## Types written in place -/

mutual

theorem FieldType.inlined_shift (lines : Nat) (type : FieldType) :
    (type.shift lines).inlined = type.inlined.map (Definition.shift lines) := by
  cases type with
  | named name => rfl
  | struct declared =>
    simp only [FieldType.shift, FieldType.inlined, Struct.inlined_shift lines declared,
      List.map_append, List.map_singleton, Definition.shift]
  | union declared =>
    simp only [FieldType.shift, FieldType.inlined, Union.inlined_shift lines declared,
      List.map_append, List.map_singleton, Definition.shift]

theorem Field.inlined_shift (lines : Nat) (field : Field) :
    (field.shift lines).inlined = field.inlined.map (Definition.shift lines) := by
  obtain ⟨name, type, shape, line⟩ := field
  exact FieldType.inlined_shift lines type

theorem Struct.inlined_shift (lines : Nat) (declared : Struct) :
    (declared.shift lines).inlined = declared.inlined.map (Definition.shift lines) := by
  obtain ⟨name, fields, line⟩ := declared
  exact inlinedOfFields_shift lines fields

theorem Arm.inlined_shift (lines : Nat) (arm : Arm) :
    (arm.shift lines).inlined = arm.inlined.map (Definition.shift lines) := by
  obtain ⟨labels, content, line⟩ := arm
  cases content with
  | none => rfl
  | some content => exact Field.inlined_shift lines content

theorem Union.inlined_shift (lines : Nat) (declared : Union) :
    (declared.shift lines).inlined = declared.inlined.map (Definition.shift lines) := by
  obtain ⟨name, switch, arms, line⟩ := declared
  exact inlinedOfArms_shift lines arms

theorem inlinedOfFields_shift (lines : Nat) (fields : List Field) :
    inlinedOfFields (shiftFields lines fields) =
      (inlinedOfFields fields).map (Definition.shift lines) := by
  cases fields with
  | nil => rfl
  | cons field rest =>
    rw [shiftFields, inlinedOfFields, inlinedOfFields, Field.inlined_shift lines field,
      inlinedOfFields_shift lines rest, List.map_append]

theorem inlinedOfArms_shift (lines : Nat) (arms : List Arm) :
    inlinedOfArms (shiftArms lines arms) =
      (inlinedOfArms arms).map (Definition.shift lines) := by
  cases arms with
  | nil => rfl
  | cons arm rest =>
    rw [shiftArms, inlinedOfArms, inlinedOfArms, Arm.inlined_shift lines arm,
      inlinedOfArms_shift lines rest, List.map_append]

end

/-- Moving a definition moves the types written in place within it. -/
theorem Definition.unfolded_shift (lines : Nat) (definition : Definition) :
    (definition.shift lines).unfolded = definition.unfolded.map (Definition.shift lines) := by
  have hInlined : (definition.shift lines).inlined =
      definition.inlined.map (Definition.shift lines) := by
    cases definition with
    | struct declared => exact declared.inlined_shift lines
    | union declared => exact declared.inlined_shift lines
    | _ => rfl
  rw [unfolded, hInlined, unfolded, List.map_append, List.map_singleton]

/-! ## Sources -/

namespace Grammar

variable {tokens : List Token} {found others : List Definition} {stop : List Token}

/-- Items stay what they are in front of others. -/
theorem Itemized.append {behind : List Token} (h : Itemized false tokens found stop)
    (hBehind : Itemized false behind others []) :
    Itemized false (tokens ++ behind) (found ++ others) [] := by
  let move : Move := ⟨0, 0, behind, hBehind.mayFollow⟩
  have hCarried : Itemized false (move.carry tokens) _ [] := h.carried hBehind
  rw [Definition.shift_zero, List.map_id, Move.carry, Token.shift_zero, List.map_id] at hCarried
  exact hCarried

/-- Items stay what they are further down, but for the lines. -/
theorem Itemized.shift (h : Itemized false tokens found stop) (lines bytes : Nat) :
    Itemized false (tokens.map (.shift lines bytes)) (found.map (Definition.shift lines)) [] := by
  have hNil : Itemized false [] [] [] := .finish rfl
  let move : Move := ⟨lines, bytes, [], hNil.mayFollow⟩
  have hCarried : Itemized false (move.carry tokens) _ [] := h.carried hNil
  rw [Move.carry, List.append_nil, List.append_nil] at hCarried
  exact hCarried

theorem FileRead.items {behind : List Token} (h : FileRead tokens none found behind) :
    isKeywordAhead .nameSpace tokens = false ∧ Itemized false tokens found [] := by
  cases h with
  | plain hPlain hItems => exact ⟨hPlain, hItems⟩

theorem isKeywordAhead_append {word : Keyword} {behind : List Token}
    (hTokens : isKeywordAhead word tokens = false) (hBehind : isKeywordAhead word behind = false) :
    isKeywordAhead word (tokens ++ behind) = false := by
  cases tokens with
  | nil => exact hBehind
  | cons token rest => exact hTokens

end Grammar

/-- Two sources without a namespace are parsed one behind the other: what the second one declares
stands behind what the first one does, with only its lines further down. -/
theorem parse_concatenated (ink : Ink) {first second filename : String} {front back : Text}
    {upper lower : File} (hFront : parse ink first front = .ok upper)
    (hUpper : upper.nameSpace = none) (hBack : parse ink second back = .ok lower)
    (hLower : lower.nameSpace = none) :
    parse ink filename (front ++ '\n' :: back) = .ok ⟨filename, none,
      upper.definitions ++ lower.definitions.map (Definition.shift (front.count '\n' + 1))⟩ := by
  obtain ⟨tokens, hTokens, hRead, found, stop, hFile, hFound⟩ := exists_of_parse hFront
  obtain ⟨tokens', hTokens', hRead', found', stop', hFile', hFound'⟩ := exists_of_parse hBack
  rw [hUpper] at hFile
  rw [hLower] at hFile'
  obtain ⟨hPlain, hItems⟩ := hFile.items
  obtain ⟨hPlain', hItems'⟩ := hFile'.items
  have hTokenize := tokenize_newline hTokens hTokens'
  generalize hLines : front.count '\n' + 1 = lines at hTokenize ⊢
  generalize (front ++ ['\n']).byteSize = bytes at hTokenize
  rw [List.map_append, ← List.append_assoc] at hTokenize
  -- the tokens in front of the last end mark
  have hBefore : beforeEnd (tokens ++ tokens'.map (.shift lines bytes) ++
      [endOf back].map (.shift lines bytes)) = tokens ++ tokens'.map (.shift lines bytes) := by
    refine beforeEnd_append_finish (fun token hToken => ?_) rfl
    rcases List.mem_append.mp hToken with hMem | hMem
    · exact hRead token hMem
    · obtain ⟨other, hOther, rfl⟩ := List.mem_map.mp hMem
      exact hRead' other hOther
  refine parse_eq_ok_iff.mpr ⟨_, hTokenize, parseTokens_eq_ok_iff.mpr
    ⟨none, found ++ found'.map (Definition.shift lines), [], ?_, ?_⟩⟩
  · rw [hBefore]
    have hAll := hItems.append (hItems'.shift lines bytes)
    refine .plain (Grammar.isKeywordAhead_append hPlain ?_) hAll
    cases tokens' <;> exact hPlain'
  · rw [hFound, hFound', List.flatMap_append, List.map_flatMap, List.flatMap_map]
    simp only [Definition.unfolded_shift]

/-- A source that ends within a comment. -/
def commentSource : Text := "const A = 1; // end".toList

/-- A source that begins with a directive and has a type written in place. -/
def directiveSource : Text := "%b\nstruct S \x7b struct \x7b int y; \x7d z; \x7d;".toList

theorem parse_concatenated_comment : ∃ upper lower : File,
    parse .plain "a.x" commentSource = .ok upper ∧
      parse .plain "b.x" directiveSource = .ok lower ∧
      parse .plain "ab.x" (commentSource ++ '\n' :: directiveSource) =
        .ok ⟨"ab.x", none, upper.definitions ++ lower.definitions.map (Definition.shift 1)⟩ ∧
      (upper.definitions ++ lower.definitions).map Definition.name = ["A", "SZ", "S"] := by
  have hFirst : (parse .plain "a.x" commentSource).toOption.map
      (fun file => (file.nameSpace, file.definitions.map Definition.name)) =
        some (none, ["A"]) := by decide +kernel
  have hSecond : (parse .plain "b.x" directiveSource).toOption.map
      (fun file => (file.nameSpace, file.definitions.map Definition.name)) =
        some (none, ["SZ", "S"]) := by decide +kernel
  obtain ⟨upper, hUpper, hFront⟩ := Option.map_eq_some_iff.mp hFirst
  obtain ⟨lower, hLower, hBack⟩ := Option.map_eq_some_iff.mp hSecond
  obtain ⟨hPlain, hNames⟩ := Prod.mk.inj hFront
  obtain ⟨hPlain', hNames'⟩ := Prod.mk.inj hBack
  have hUpper := eq_ok_of_mem_toOption hUpper
  have hLower := eq_ok_of_mem_toOption hLower
  refine ⟨upper, lower, hUpper, hLower, ?_, ?_⟩
  · exact parse_concatenated .plain hUpper hPlain hLower hPlain'
  · rw [List.map_append, hNames, hNames']
    rfl

end XdrBindings.Idl
