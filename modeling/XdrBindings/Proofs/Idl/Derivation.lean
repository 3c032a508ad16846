import XdrBindings.Proofs.Idl.Acceptance
import XdrBindings.Proofs.Idl.Places

/-!
# What a rule has read

Each rule that has read something has done so in one of a few ways, which are stated here once: the
tokens that it has passed, and the rules that have read the rest.  A body has read its items one
behind the other, and a file its semicolons and definitions.

## Main results

* `field_read`, `arm_read`, `definition_read` — the ways to read a field, an arm and a definition.
* `body_read` — a body has read repeated items and a closing brace.
* `parseTokens_eq_ok_iff`, `parse_eq_ok_iff` — a file has read its items up to its end.
-/

namespace XdrBindings.Idl

namespace Grammar

variable {α : Type} {tokens rest : List Token}

/-! ## Single tokens -/

theorem isAhead_eq_true_iff {mark : Symbol} :
    isAhead mark tokens = true ↔ ∃ token others, tokens = token :: others ∧
      token.kind = .symbol mark := by
  cases tokens <;> simp [isAhead]

theorem isKeywordAhead_eq_true_iff {word : Keyword} :
    isKeywordAhead word tokens = true ↔ ∃ token others, tokens = token :: others ∧
      token.kind = .keyword word := by
  cases tokens <;> simp [isKeywordAhead]

theorem symbol_eq_ok_iff {mark : Symbol} :
    symbol mark tokens = .ok rest ↔ ∃ token, tokens = token :: rest ∧
      token.kind = .symbol mark := by
  cases tokens with
  | nil => simp [symbol, isAhead]
  | cons token others =>
    by_cases hKind : token.kind = .symbol mark <;> simp [symbol, isAhead, hKind, and_assoc]

theorem keyword_eq_ok_iff {word : Keyword} :
    keyword word tokens = .ok rest ↔ ∃ token, tokens = token :: rest ∧
      token.kind = .keyword word := by
  cases tokens with
  | nil => simp [keyword, isKeywordAhead]
  | cons token others =>
    by_cases hKind : token.kind = .keyword word <;> simp [keyword, isKeywordAhead, hKind, and_assoc]

theorem identifier_eq_ok_iff {name : String} :
    identifier tokens = .ok (name, rest) ↔ ∃ token, tokens = token :: rest ∧
      token.kind = .identifier name := by
  rcases tokens with _ | ⟨⟨kind, text, position, span⟩, others⟩
  · simp [identifier]
  · cases kind <;> simp [identifier, and_comm]

theorem number_eq_ok_iff {value : Int} :
    number tokens = .ok (value, rest) ↔ ∃ token, tokens = token :: rest ∧
      token.kind = .number value := by
  rcases tokens with _ | ⟨⟨kind, text, position, span⟩, others⟩
  · simp [number]
  · cases kind <;> simp [number, and_comm]

/-! ## Bodies -/

/-- Items one behind the other, each read where the one in front of it ends. -/
inductive Repeats (item : List Token → Except Fault (Read α)) :
    List Token → List α → List Token → Prop
  | nil {rest : List Token} : Repeats item rest [] rest
  | cons {tokens mid rest : List Token} {value : α} {values : List α}
      (hItem : item tokens = .ok (value, mid)) (hRest : Repeats item mid values rest) :
      Repeats item tokens (value :: values) rest

/-- What holds of each item that can be read holds of all that have been. -/
theorem Repeats.forall_mem {item : List Token → Except Fault (Read α)} {values : List α}
    {holds : α → Prop} (h : Repeats item tokens values rest)
    (hItem : ∀ {tokens value rest}, item tokens = .ok (value, rest) → holds value) :
    ∀ value ∈ values, holds value := by
  induction h with
  | nil => exact List.forall_mem_nil _
  | cons hRead _ ih => exact List.forall_mem_cons.mpr ⟨hItem hRead, ih⟩

theorem itemsUntilClose_read {item : List Token → Except Fault (Read α)} {bound : Nat}
    {values : List α} (h : itemsUntilClose item bound tokens = .ok (values, rest)) :
    Repeats item tokens values rest := by
  induction bound generalizing tokens values with
  | zero => cases h
  | succ bound ih =>
    rw [itemsUntilClose] at h
    split at h
    · cases h
      exact .nil
    · obtain ⟨⟨value, mid⟩, hItem, h⟩ := bind_eq_ok_iff.mp h
      obtain ⟨⟨others, behind⟩, hOthers, h⟩ := bind_eq_ok_iff.mp h
      cases h
      exact .cons hItem (ih hOthers)

/-- A body has read its items up to a closing brace, and this. -/
theorem exists_of_body {item : List Token → Except Fault (Read α)} {values : List α}
    (h : body item tokens = .ok (values, rest)) :
    ∃ close, close.kind = .symbol .closeBrace ∧
      itemsUntilClose item (tokens.length + 1) tokens = .ok (values, close :: rest) := by
  obtain ⟨⟨found, mid⟩, hItems, h⟩ := bind_eq_ok_iff.mp h
  obtain ⟨behind, hClose, hDone⟩ := bind_eq_ok_iff.mp h
  obtain ⟨close, rfl, hKind⟩ := symbol_eq_ok_iff.mp hClose
  cases hDone
  exact ⟨close, hKind, hItems⟩

theorem body_read {item : List Token → Except Fault (Read α)} {values : List α}
    (h : body item tokens = .ok (values, rest)) :
    ∃ close, close.kind = .symbol .closeBrace ∧ Repeats item tokens values (close :: rest) := by
  obtain ⟨close, hKind, hItems⟩ := exists_of_body h
  exact ⟨close, hKind, itemsUntilClose_read hItems⟩

/-! ## Fields and arms -/

/-- The ways to read a field of the type named `parent`. -/
inductive FieldRead (depth : Nat) (parent : String) : List Token → Field → List Token → Prop
  | declared {tokens rest : List Token} {type name : String} {shape : Shape}
      (hDeclarator : declarator tokens = .ok (⟨type, name, shape⟩, rest)) :
      FieldRead depth parent tokens ⟨name, .named type, shape, lineAhead tokens⟩ rest
  | struct {word opening : Token} {inner behind rest : List Token} {name : String}
      {fields : List Field} {shape : Shape} (hWord : word.kind = .keyword .struct)
      (hOpening : opening.kind = .symbol .openBrace) (hName : nameBehind 0 inner = .ok name)
      (hFields : body (structItem (field depth (inlineName parent name))) inner =
        .ok (fields, behind))
      (hTail : inlineTail (inlineName parent name) behind = .ok (shape, rest)) :
      FieldRead depth parent (word :: opening :: inner)
        ⟨name, .struct ⟨inlineName parent name, fields, word.position.line⟩, shape,
          word.position.line⟩ rest
  | union {word opening : Token} {switched inner behind rest : List Token} {name : String}
      {switch : Discriminant} {arms : List Arm} {shape : Shape}
      (hWord : word.kind = .keyword .union)
      (hSwitch : discriminant switched = .ok (switch, opening :: inner))
      (hOpening : opening.kind = .symbol .openBrace) (hName : nameBehind 0 inner = .ok name)
      (hArms : body (arm (field depth (inlineName parent name))) inner = .ok (arms, behind))
      (hTail : inlineTail (inlineName parent name) behind = .ok (shape, rest)) :
      FieldRead depth parent (word :: switched)
        ⟨name, .union ⟨inlineName parent name, switch, arms, word.position.line⟩, shape,
          word.position.line⟩ rest

theorem field_read {depth : Nat} {parent : String} {value : Field}
    (h : field (depth + 1) parent tokens = .ok (value, rest)) :
    FieldRead depth parent tokens value rest := by
  rw [field] at h
  split at h
  · rename_i hAhead
    obtain ⟨hStruct, hOpen⟩ := Bool.and_eq_true_iff.mp hAhead
    obtain ⟨word, others, rfl, hWord⟩ := isKeywordAhead_eq_true_iff.mp hStruct
    obtain ⟨opening, inner, rfl, hOpening⟩ := isAhead_eq_true_iff.mp hOpen
    obtain ⟨name, hName, h⟩ := bind_eq_ok_iff.mp h
    obtain ⟨⟨fields, behind⟩, hFields, h⟩ := bind_eq_ok_iff.mp h
    obtain ⟨⟨shape, last⟩, hTail, h⟩ := bind_eq_ok_iff.mp h
    cases h
    exact .struct hWord hOpening hName hFields hTail
  split at h
  · rename_i hUnion
    obtain ⟨word, switched, rfl, hWord⟩ := isKeywordAhead_eq_true_iff.mp hUnion
    obtain ⟨⟨switch, mid⟩, hSwitch, h⟩ := bind_eq_ok_iff.mp h
    obtain ⟨inner, hOpen, hBody⟩ := bind_eq_ok_iff.mp h
    obtain ⟨opening, rfl, hOpening⟩ := symbol_eq_ok_iff.mp hOpen
    obtain ⟨name, hName, hBody⟩ := bind_eq_ok_iff.mp hBody
    obtain ⟨⟨arms, behind⟩, hArms, hBody⟩ := bind_eq_ok_iff.mp hBody
    obtain ⟨⟨shape, last⟩, hTail, hDone⟩ := bind_eq_ok_iff.mp hBody
    cases hDone
    exact .union hWord hSwitch hOpening hName hArms hTail
  · obtain ⟨⟨⟨type, name, shape⟩, last⟩, hDeclarator, h⟩ := bind_eq_ok_iff.mp h
    cases h
    exact .declared hDeclarator

theorem structItem_read {field : List Token → Except Fault (Read Field)} {value : Field}
    (h : structItem field tokens = .ok (value, rest)) : field tokens = .ok (value, rest) := by
  unfold structItem at h
  split at h
  · cases h
  · exact h

/-- The ways to read an arm, where `field` reads its content. -/
inductive ArmRead (field : List Token → Except Fault (Read Field)) :
    List Token → Arm → List Token → Prop
  | void {tokens rest : List Token} {word semicolon : Token} {found : List CaseLabel}
      (hLabels : labels tokens = .ok (found, word :: semicolon :: rest)) (hSome : found ≠ [])
      (hWord : word.kind = .keyword .void) (hSemicolon : semicolon.kind = .symbol .semicolon) :
      ArmRead field tokens ⟨found, none, lineAhead tokens⟩ rest
  | field {tokens mid rest : List Token} {found : List CaseLabel} {content : Field}
      (hLabels : labels tokens = .ok (found, mid)) (hSome : found ≠ [])
      (hContent : field mid = .ok (content, rest)) :
      ArmRead field tokens ⟨found, some content, lineAhead tokens⟩ rest

theorem arm_read {field : List Token → Except Fault (Read Field)} {value : Arm}
    (h : arm field tokens = .ok (value, rest)) : ArmRead field tokens value rest := by
  obtain ⟨⟨found, mid⟩, hLabels, h⟩ := bind_eq_ok_iff.mp h
  dsimp only at h
  split at h
  · cases h
  rename_i hSome
  have hSome : found ≠ [] := fun hNil => hSome (by rw [hNil]; rfl)
  split at h
  · rename_i hVoid
    obtain ⟨word, others, rfl, hWord⟩ := isKeywordAhead_eq_true_iff.mp hVoid
    obtain ⟨behind, hMark, hDone⟩ := bind_eq_ok_iff.mp h
    obtain ⟨semicolon, hBehind, hSemicolon⟩ := symbol_eq_ok_iff.mp hMark
    obtain rfl : others = semicolon :: behind := hBehind
    cases hDone
    exact .void hLabels hSome hWord hSemicolon
  · obtain ⟨⟨content, behind⟩, hContent, h⟩ := bind_eq_ok_iff.mp h
    cases h
    exact .field hLabels hSome hContent

/-! ## Definitions -/

theorem constant_line {line : Nat} {declared : Constant}
    (h : constant line tokens = .ok (declared, rest)) : declared.line = line := by
  obtain ⟨⟨name, mid⟩, -, hRead⟩ := bind_eq_ok_iff.mp h
  obtain ⟨mid, -, hRead⟩ := bind_eq_ok_iff.mp hRead
  obtain ⟨⟨value, mid⟩, -, hRead⟩ := bind_eq_ok_iff.mp hRead
  obtain ⟨mid, -, hDone⟩ := bind_eq_ok_iff.mp hRead
  cases hDone
  rfl

theorem typedef_line {line : Nat} {declared : Typedef}
    (h : typedef line tokens = .ok (declared, rest)) : declared.line = line := by
  obtain ⟨⟨⟨type, name, shape⟩, mid⟩, -, hDone⟩ := bind_eq_ok_iff.mp h
  cases hDone
  rfl

/-- What stands in braces has been read by one rule, up to the semicolon behind it. -/
theorem braced_read {β : Type} (read : List Token → Except Fault (Read α)) (make : α → β)
    {declared : β}
    (h : (do
      let inner ← symbol .openBrace tokens
      let (found, behind) ← read inner
      let rest ← symbol .semicolon behind
      return (make found, rest)) = .ok (declared, rest)) :
    ∃ opening semicolon inner found, tokens = opening :: inner ∧
      opening.kind = .symbol .openBrace ∧ read inner = .ok (found, semicolon :: rest) ∧
      semicolon.kind = .symbol .semicolon ∧ make found = declared := by
  obtain ⟨inner, hOpen, hRead⟩ := bind_eq_ok_iff.mp h
  obtain ⟨⟨found, behind⟩, hFound, hRead⟩ := bind_eq_ok_iff.mp hRead
  obtain ⟨last, hLast, hDone⟩ := bind_eq_ok_iff.mp hRead
  obtain ⟨opening, rfl, hOpening⟩ := symbol_eq_ok_iff.mp hOpen
  obtain ⟨semicolon, hBehind, hSemicolon⟩ := symbol_eq_ok_iff.mp hLast
  cases hDone
  obtain rfl : behind = semicolon :: rest := hBehind
  exact ⟨opening, semicolon, inner, found, rfl, hOpening, hFound, hSemicolon, rfl⟩

theorem enum_read {line : Nat} {declared : Enum} (h : enum line tokens = .ok (declared, rest)) :
    declared.line = line ∧ ∃ label opening semicolon inner, tokens = label :: opening :: inner ∧
      label.kind = .identifier declared.name ∧ opening.kind = .symbol .openBrace ∧
      body enumValue inner = .ok (declared.values, semicolon :: rest) ∧
      semicolon.kind = .symbol .semicolon := by
  obtain ⟨⟨name, mid⟩, hName, hRead⟩ := bind_eq_ok_iff.mp h
  obtain ⟨label, rfl, hLabel⟩ := identifier_eq_ok_iff.mp hName
  obtain ⟨opening, semicolon, inner, values, hMid, hOpening, hValues, hSemicolon, rfl⟩ :=
    braced_read (body enumValue) (Enum.mk name · line) hRead
  obtain rfl : mid = opening :: inner := hMid
  exact ⟨rfl, label, opening, semicolon, inner, rfl, hLabel, hOpening, hValues, hSemicolon⟩

theorem struct_read {line : Nat} {declared : Struct}
    (h : struct line tokens = .ok (declared, rest)) :
    declared.line = line ∧ ∃ label opening semicolon inner, tokens = label :: opening :: inner ∧
      label.kind = .identifier declared.name ∧ opening.kind = .symbol .openBrace ∧
      body (structItem (field inner.length declared.name)) inner =
        .ok (declared.fields, semicolon :: rest) ∧
      semicolon.kind = .symbol .semicolon := by
  obtain ⟨⟨name, mid⟩, hName, hRead⟩ := bind_eq_ok_iff.mp h
  obtain ⟨label, rfl, hLabel⟩ := identifier_eq_ok_iff.mp hName
  obtain ⟨opening, semicolon, inner, fields, hMid, hOpening, hFields, hSemicolon, rfl⟩ :=
    braced_read (fun inner => body (structItem (field inner.length name)) inner)
      (Struct.mk name · line) hRead
  obtain rfl : mid = opening :: inner := hMid
  exact ⟨rfl, label, opening, semicolon, inner, rfl, hLabel, hOpening, hFields, hSemicolon⟩

theorem union_read {line : Nat} {declared : Union}
    (h : union line tokens = .ok (declared, rest)) :
    declared.line = line ∧ ∃ label opening semicolon switched inner, tokens = label :: switched ∧
      label.kind = .identifier declared.name ∧
      discriminant switched = .ok (declared.discriminant, opening :: inner) ∧
      opening.kind = .symbol .openBrace ∧
      body (arm (field inner.length declared.name)) inner =
        .ok (declared.arms, semicolon :: rest) ∧
      semicolon.kind = .symbol .semicolon := by
  obtain ⟨⟨name, switched⟩, hName, hRead⟩ := bind_eq_ok_iff.mp h
  obtain ⟨⟨switch, mid⟩, hSwitch, hRead⟩ := bind_eq_ok_iff.mp hRead
  obtain ⟨label, rfl, hLabel⟩ := identifier_eq_ok_iff.mp hName
  obtain ⟨opening, semicolon, inner, arms, hMid, hOpening, hArms, hSemicolon, rfl⟩ :=
    braced_read (fun inner => body (arm (field inner.length name)) inner)
      (Union.mk name switch · line) hRead
  obtain rfl : mid = opening :: inner := hMid
  exact ⟨rfl, label, opening, semicolon, switched, inner, rfl, hLabel, hSwitch, hOpening, hArms,
    hSemicolon⟩

/-- The ways to read a definition. -/
inductive DefinitionRead : List Token → Definition → List Token → Prop
  | constant {word : Token} {inner rest : List Token} {declared : Constant}
      (hWord : word.kind = .keyword .const)
      (hRead : constant word.position.line inner = .ok (declared, rest)) :
      DefinitionRead (word :: inner) (.constant declared) rest
  | typedef {word : Token} {inner rest : List Token} {declared : Typedef}
      (hWord : word.kind = .keyword .typedef)
      (hRead : typedef word.position.line inner = .ok (declared, rest)) :
      DefinitionRead (word :: inner) (.typedef declared) rest
  | enum {word : Token} {inner rest : List Token} {declared : Enum}
      (hWord : word.kind = .keyword .enum)
      (hRead : enum word.position.line inner = .ok (declared, rest)) :
      DefinitionRead (word :: inner) (.enum declared) rest
  | struct {word : Token} {inner rest : List Token} {declared : Struct}
      (hWord : word.kind = .keyword .struct)
      (hRead : struct word.position.line inner = .ok (declared, rest)) :
      DefinitionRead (word :: inner) (.struct declared) rest
  | union {word : Token} {inner rest : List Token} {declared : Union}
      (hWord : word.kind = .keyword .union)
      (hRead : union word.position.line inner = .ok (declared, rest)) :
      DefinitionRead (word :: inner) (.union declared) rest

theorem definition_read {value : Definition} (h : definition tokens = .ok (value, rest)) :
    DefinitionRead tokens value rest := by
  have hStep {β : Type} {result : Except Fault (Read β)} (make : β → Definition)
      (h : (result >>= fun read => pure (make read.1, read.2)) =
        (.ok (value, rest) : Except Fault (Read Definition))) :
      ∃ declared, result = .ok (declared, rest) ∧ value = make declared := by
    obtain ⟨⟨declared, last⟩, hRead, h⟩ := bind_eq_ok_iff.mp h
    cases h
    exact ⟨declared, hRead, rfl⟩
  unfold definition at h
  split at h
  · obtain ⟨word, inner, rfl, hWord⟩ := isKeywordAhead_eq_true_iff.mp ‹_›
    obtain ⟨declared, hRead, rfl⟩ := hStep .constant h
    exact .constant hWord hRead
  split at h
  · obtain ⟨word, inner, rfl, hWord⟩ := isKeywordAhead_eq_true_iff.mp ‹_›
    obtain ⟨declared, hRead, rfl⟩ := hStep .typedef h
    exact .typedef hWord hRead
  split at h
  · obtain ⟨word, inner, rfl, hWord⟩ := isKeywordAhead_eq_true_iff.mp ‹_›
    obtain ⟨declared, hRead, rfl⟩ := hStep .enum h
    exact .enum hWord hRead
  split at h
  · obtain ⟨word, inner, rfl, hWord⟩ := isKeywordAhead_eq_true_iff.mp ‹_›
    obtain ⟨declared, hRead, rfl⟩ := hStep .struct h
    exact .struct hWord hRead
  split at h
  · obtain ⟨word, inner, rfl, hWord⟩ := isKeywordAhead_eq_true_iff.mp ‹_›
    obtain ⟨declared, hRead, rfl⟩ := hStep .union h
    exact .union hWord hRead
  · cases h

theorem exists_of_definition {value : Definition} (h : definition tokens = .ok (value, rest)) :
    rest.length < tokens.length ∧ ∃ word inner, tokens = word :: inner ∧
      ∃ name ∈ [Keyword.const, .typedef, .enum, .struct, .union], word.kind = .keyword name := by
  have hBegins : Begins (fun _ => True) Words.definition := begins_definition fun _ => trivial
  have hReads : Reads Words.definition 1 tokens (definition tokens) := definition_reads
  refine ⟨hBegins.length_lt (hReads.sound h), ?_⟩
  cases definition_read h with
  | constant hWord | typedef hWord | enum hWord | struct hWord | union hWord =>
    exact ⟨_, _, rfl, _, by simp, hWord⟩

/-! ## Files -/

/-- Stray semicolons and definitions one behind the other, up to the end of a file: the end of the
tokens or, in a namespace, a closing brace. -/
inductive Itemized (inNameSpace : Bool) : List Token → List Definition → List Token → Prop
  | finish {behind : List Token}
      (hEnd : (behind.isEmpty || (inNameSpace && isAhead .closeBrace behind)) = true) :
      Itemized inNameSpace behind [] behind
  | semicolon {token : Token} {rest behind : List Token} {found : List Definition}
      (hToken : token.kind = .symbol .semicolon) (hRest : Itemized inNameSpace rest found behind) :
      Itemized inNameSpace (token :: rest) found behind
  | definition {tokens mid behind : List Token} {first : Definition} {others : List Definition}
      (hFirst : definition tokens = .ok (first, mid))
      (hRest : Itemized inNameSpace mid others behind) :
      Itemized inNameSpace tokens (first :: others) behind

theorem Itemized.isEnd {inNameSpace : Bool} {found : List Definition} {behind : List Token}
    (h : Itemized inNameSpace tokens found behind) :
    (behind.isEmpty || (inNameSpace && isAhead .closeBrace behind)) = true := by
  induction h with
  | finish hEnd => exact hEnd
  | semicolon _ _ ih => exact ih
  | definition _ _ ih => exact ih

/-- Outside of a namespace nothing stands behind the items. -/
theorem Itemized.behind_eq_nil {found : List Definition} {behind : List Token}
    (h : Itemized false tokens found behind) : behind = [] := by
  simpa using h.isEnd

theorem Itemized.exists_front {inNameSpace : Bool} {found : List Definition} {behind : List Token}
    (h : Itemized inNameSpace tokens found behind) : ∃ front, tokens = front ++ behind := by
  induction h with
  | finish => exact ⟨[], rfl⟩
  | @semicolon token _ _ _ _ _ ih =>
    obtain ⟨front, rfl⟩ := ih
    exact ⟨token :: front, rfl⟩
  | @definition tokens _ _ _ _ hFirst _ ih =>
    obtain ⟨front, rfl⟩ := ih
    have hReads : Reads Words.definition 1 tokens (Grammar.definition tokens) := definition_reads
    obtain ⟨first, -, rfl⟩ := hReads.sound hFirst
    exact ⟨first ++ front, (List.append_assoc ..).symm⟩

theorem definitions_eq_ok_iff {inNameSpace : Bool} {bound : Nat} {found : List Definition}
    (hBound : tokens.length < bound) :
    definitions inNameSpace bound tokens = .ok found ↔
      ∃ behind, Itemized inNameSpace tokens found behind := by
  constructor
  · intro h
    clear hBound
    induction bound generalizing tokens found with
    | zero => cases h
    | succ bound ih =>
      rw [definitions] at h
      split at h
      · cases h
        exact ⟨tokens, .finish ‹_›⟩
      split at h
      · obtain ⟨token, others, rfl, hToken⟩ := isAhead_eq_true_iff.mp ‹_›
        obtain ⟨behind, hRest⟩ := ih h
        exact ⟨behind, .semicolon hToken hRest⟩
      · obtain ⟨⟨first, mid⟩, hFirst, h⟩ := bind_eq_ok_iff.mp h
        obtain ⟨others, hOthers, h⟩ := bind_eq_ok_iff.mp h
        cases h
        obtain ⟨behind, hRest⟩ := ih hOthers
        exact ⟨behind, .definition hFirst hRest⟩
  · rintro ⟨behind, h⟩
    induction h generalizing bound with
    | finish hEnd =>
      obtain ⟨bound, rfl⟩ := Nat.exists_eq_succ_of_ne_zero (Nat.ne_zero_of_lt hBound)
      rw [definitions, if_pos hEnd]
    | @semicolon token rest behind found hToken hRest ih =>
      obtain ⟨bound, rfl⟩ := Nat.exists_eq_succ_of_ne_zero (Nat.ne_zero_of_lt hBound)
      rw [List.length_cons] at hBound
      rw [definitions_semicolon hToken, ih (by omega)]
    | definition hFirst hRest ih =>
      obtain ⟨bound, rfl⟩ := Nat.exists_eq_succ_of_ne_zero (Nat.ne_zero_of_lt hBound)
      obtain ⟨hLength, word, inner, rfl, name, -, hWord⟩ := exists_of_definition hFirst
      have hEnd : ((word :: inner).isEmpty ||
          (inNameSpace && isAhead .closeBrace (word :: inner))) = false := by
        simp [isAhead, hWord]
      have hMark : isAhead .semicolon (word :: inner) = false := by simp [isAhead, hWord]
      rw [List.length_cons] at hBound hLength
      rw [definitions, hEnd, hMark]
      exact bind_eq_ok_iff.mpr ⟨_, hFirst, bind_eq_ok_iff.mpr ⟨_, ih (by omega), rfl⟩⟩

/-- The ways to read a file, with what stands behind the brace that closes its namespace. -/
inductive FileRead : List Token → Option String → List Definition → List Token → Prop
  | plain {tokens : List Token} {found : List Definition}
      (hPlain : isKeywordAhead .nameSpace tokens = false)
      (hItems : Itemized false tokens found []) : FileRead tokens none found []
  | nameSpace {word label opening : Token} {inner behind : List Token} {name : String}
      {found : List Definition} (hWord : word.kind = .keyword .nameSpace)
      (hLabel : label.kind = .identifier name) (hOpening : opening.kind = .symbol .openBrace)
      (hItems : Itemized true inner found behind) :
      FileRead (word :: label :: opening :: inner) (some name) found behind

/-- Nothing stands behind the items of a file but, in a namespace, a closing brace and anything. -/
theorem FileRead.exists_front {nameSpace : Option String} {found : List Definition}
    {behind : List Token} (h : FileRead tokens nameSpace found behind) :
    (∃ front, tokens = front ++ behind) ∧
      (behind = [] ∨ nameSpace.isSome = true ∧ isAhead .closeBrace behind = true) := by
  cases h with
  | plain => exact ⟨⟨tokens, (List.append_nil tokens).symm⟩, .inl rfl⟩
  | @nameSpace word label opening inner _ _ _ _ _ _ hItems =>
    obtain ⟨front, rfl⟩ := hItems.exists_front
    refine ⟨⟨word :: label :: opening :: front, rfl⟩, ?_⟩
    simpa using hItems.isEnd

theorem topLevel_eq_ok_iff {nameSpace : Option String} {found : List Definition} :
    topLevel tokens = .ok (nameSpace, found) ↔
      ∃ behind, FileRead tokens nameSpace found behind := by
  constructor
  · intro h
    unfold topLevel at h
    split at h
    · obtain ⟨word, others, rfl, hWord⟩ := isKeywordAhead_eq_true_iff.mp ‹_›
      obtain ⟨⟨name, mid⟩, hName, hHeader⟩ := bind_eq_ok_iff.mp h
      obtain ⟨inner, hOpen, hBody⟩ := bind_eq_ok_iff.mp hHeader
      obtain ⟨items, hItems, hDone⟩ := bind_eq_ok_iff.mp hBody
      obtain ⟨label, hOthers, hLabel⟩ := identifier_eq_ok_iff.mp hName
      obtain rfl : others = label :: mid := hOthers
      obtain ⟨opening, hMid, hOpening⟩ := symbol_eq_ok_iff.mp hOpen
      obtain rfl : mid = opening :: inner := hMid
      cases hDone
      obtain ⟨behind, hItems⟩ := (definitions_eq_ok_iff (Nat.lt_succ_self _)).mp hItems
      exact ⟨behind, .nameSpace hWord hLabel hOpening hItems⟩
    · obtain ⟨items, hItems, hDone⟩ := bind_eq_ok_iff.mp h
      cases hDone
      obtain ⟨behind, hItems⟩ := (definitions_eq_ok_iff (Nat.lt_succ_self _)).mp hItems
      obtain rfl := hItems.behind_eq_nil
      exact ⟨[], .plain (Bool.eq_false_of_not_eq_true ‹_›) hItems⟩
  · rintro ⟨behind, h⟩
    cases h with
    | plain hPlain hItems =>
      rw [topLevel, hPlain]
      have hRead := (definitions_eq_ok_iff (Nat.lt_succ_self _)).mpr ⟨_, hItems⟩
      exact bind_eq_ok_iff.mpr ⟨_, hRead, rfl⟩
    | nameSpace hWord hLabel hOpening hItems =>
      rw [topLevel, isKeywordAhead_eq_true_iff.mpr ⟨_, _, rfl, hWord⟩]
      have hRead := (definitions_eq_ok_iff (Nat.lt_succ_self _)).mpr ⟨_, hItems⟩
      exact bind_eq_ok_iff.mpr ⟨_, identifier_eq_ok_iff.mpr ⟨_, rfl, hLabel⟩,
        bind_eq_ok_iff.mpr ⟨_, symbol_eq_ok_iff.mpr ⟨_, rfl, hOpening⟩,
          bind_eq_ok_iff.mpr ⟨_, hRead, rfl⟩⟩⟩

end Grammar

theorem parseTokens_eq_ok_iff {ink : Ink} {filename : String} {source : Option Text}
    {tokens : List Token} {file : File} :
    parseTokens ink filename source tokens = .ok file ↔
      ∃ nameSpace found behind, Grammar.FileRead (beforeEnd tokens) nameSpace found behind ∧
        file = ⟨filename, nameSpace, found.flatMap Definition.unfolded⟩ := by
  unfold parseTokens
  cases hRead : Grammar.topLevel (beforeEnd tokens) with
  | error fault =>
    refine iff_of_false nofun ?_
    rintro ⟨nameSpace, found, behind, hFile, -⟩
    cases hRead.symm.trans (Grammar.topLevel_eq_ok_iff.mpr ⟨behind, hFile⟩)
  | ok parsed =>
    obtain ⟨nameSpace, found⟩ := parsed
    constructor
    · rintro ⟨⟩
      obtain ⟨behind, hFile⟩ := Grammar.topLevel_eq_ok_iff.mp hRead
      exact ⟨nameSpace, found, behind, hFile, rfl⟩
    · rintro ⟨nameSpace, found, behind, hFile, rfl⟩
      cases hRead.symm.trans (Grammar.topLevel_eq_ok_iff.mpr ⟨behind, hFile⟩)
      rfl

theorem parse_eq_ok_iff {ink : Ink} {filename : String} {source : Text} {file : File} :
    parse ink filename source = .ok file ↔
      ∃ tokens, tokenize source = .ok tokens ∧
        parseTokens ink filename (some source) tokens = .ok file := by
  unfold parse
  cases tokenize source with
  | error fault => exact iff_of_false nofun nofun
  | ok tokens =>
    dsimp only
    cases hFile : parseTokens ink filename (some source) tokens <;>
      simp [hFile, Except.mapError]

/-- A source is read as a file by what its tokens in front of the end mark are read as. -/
theorem exists_of_parse {ink : Ink} {filename : String} {source : Text} {file : File}
    (h : parse ink filename source = .ok file) :
    ∃ tokens, tokenize source = .ok (tokens ++ [endOf source]) ∧
      (∀ token ∈ tokens, token.kind ≠ .finish) ∧
      ∃ found behind, Grammar.FileRead tokens file.nameSpace found behind ∧
        file.definitions = found.flatMap Definition.unfolded := by
  obtain ⟨tokens, hTokens, hFile⟩ := parse_eq_ok_iff.mp h
  obtain ⟨read, rfl, hRead⟩ := exists_of_tokenize hTokens
  obtain ⟨nameSpace, found, behind, hItems, rfl⟩ := parseTokens_eq_ok_iff.mp hFile
  rw [beforeEnd_append_finish hRead rfl] at hItems
  exact ⟨read, hTokens, hRead, found, behind, hItems, rfl⟩

end XdrBindings.Idl
