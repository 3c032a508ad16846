import XdrBindings.Proofs.Idl.Derivation
import XdrBindings.Proofs.Idl.Printer
import XdrBindings.Proofs.Idl.Shifted

/-!
# Tokens somewhere else

What a rule reads depends on the tokens that it takes and on nothing behind them, and of their
places only on the lines.  So where tokens stand further down, in front of others, the rule reads
the same with all lines further down.  The one condition is that what stands behind does not
continue a rule that could have gone on.

## Main results

* `nameBehind_carried` — the search for the name of a type written in place does not look past it.
* `definition_carried` — a definition is read the same further down and in front of others.
* `Itemized.carried` — so are all the definitions of a file.
-/

namespace XdrBindings.Idl

/-! ## Declarations further down -/

mutual

/-- A type with everything in it some lines further down. -/
def FieldType.shift (lines : Nat) : FieldType → FieldType
  | .named name => .named name
  | .struct declared => .struct (declared.shift lines)
  | .union declared => .union (declared.shift lines)

/-- A field some lines further down. -/
def Field.shift (lines : Nat) : Field → Field
  | ⟨name, type, shape, line⟩ => ⟨name, type.shift lines, shape, line + lines⟩

/-- A structure some lines further down. -/
def Struct.shift (lines : Nat) : Struct → Struct
  | ⟨name, fields, line⟩ => ⟨name, shiftFields lines fields, line + lines⟩

/-- An arm of a union some lines further down. -/
def Arm.shift (lines : Nat) : Arm → Arm
  | ⟨labels, none, line⟩ => ⟨labels, none, line + lines⟩
  | ⟨labels, some content, line⟩ => ⟨labels, some (content.shift lines), line + lines⟩

/-- A union some lines further down. -/
def Union.shift (lines : Nat) : Union → Union
  | ⟨name, switch, arms, line⟩ => ⟨name, switch, shiftArms lines arms, line + lines⟩

/-- Fields some lines further down. -/
def shiftFields (lines : Nat) : List Field → List Field
  | [] => []
  | field :: rest => field.shift lines :: shiftFields lines rest

/-- Arms some lines further down. -/
def shiftArms (lines : Nat) : List Arm → List Arm
  | [] => []
  | arm :: rest => arm.shift lines :: shiftArms lines rest

end

theorem shiftFields_eq (lines : Nat) (fields : List Field) :
    shiftFields lines fields = fields.map (Field.shift lines) := by
  induction fields with
  | nil => rfl
  | cons field rest ih => rw [shiftFields, ih, List.map_cons]

theorem shiftArms_eq (lines : Nat) (arms : List Arm) :
    shiftArms lines arms = arms.map (Arm.shift lines) := by
  induction arms with
  | nil => rfl
  | cons arm rest ih => rw [shiftArms, ih, List.map_cons]

/-- A value of an enumeration some lines further down. -/
def EnumValue.shift (lines : Nat) (value : EnumValue) : EnumValue :=
  { value with line := value.line + lines }

/-- A definition with everything in it some lines further down. -/
def Definition.shift (lines : Nat) : Definition → Definition
  | .constant declared => .constant { declared with line := declared.line + lines }
  | .typedef declared => .typedef { declared with line := declared.line + lines }
  | .enum declared =>
    .enum ⟨declared.name, declared.values.map (EnumValue.shift lines), declared.line + lines⟩
  | .struct declared => .struct (declared.shift lines)
  | .union declared => .union (declared.shift lines)

/-! ### By no lines -/

mutual

theorem FieldType.shift_zero (type : FieldType) : type.shift 0 = type := by
  cases type with
  | named name => rfl
  | struct declared => rw [FieldType.shift, declared.shift_zero]
  | union declared => rw [FieldType.shift, declared.shift_zero]

theorem Field.shift_zero (field : Field) : field.shift 0 = field := by
  obtain ⟨name, type, shape, line⟩ := field
  rw [Field.shift, type.shift_zero, Nat.add_zero]

theorem Struct.shift_zero (declared : Struct) : declared.shift 0 = declared := by
  obtain ⟨name, fields, line⟩ := declared
  rw [Struct.shift, shiftFields_zero fields, Nat.add_zero]

theorem Arm.shift_zero (arm : Arm) : arm.shift 0 = arm := by
  obtain ⟨labels, content, line⟩ := arm
  cases content with
  | none => rfl
  | some content => rw [Arm.shift, content.shift_zero, Nat.add_zero]

theorem Union.shift_zero (declared : Union) : declared.shift 0 = declared := by
  obtain ⟨name, switch, arms, line⟩ := declared
  rw [Union.shift, shiftArms_zero arms, Nat.add_zero]

theorem shiftFields_zero (fields : List Field) : shiftFields 0 fields = fields := by
  cases fields with
  | nil => rfl
  | cons field rest => rw [shiftFields, field.shift_zero, shiftFields_zero rest]

theorem shiftArms_zero (arms : List Arm) : shiftArms 0 arms = arms := by
  cases arms with
  | nil => rfl
  | cons arm rest => rw [shiftArms, arm.shift_zero, shiftArms_zero rest]

end

theorem Definition.shift_zero : shift 0 = id := by
  funext definition
  cases definition with
  | struct declared => rw [shift, declared.shift_zero, id]
  | union declared => rw [shift, declared.shift_zero, id]
  | enum declared =>
    have hValues : EnumValue.shift 0 = id := rfl
    rw [shift, hValues, List.map_id, Nat.add_zero, id]
  | _ => rfl

theorem Token.shift_zero : shift 0 0 = id := rfl

namespace Grammar

variable {α β : Type}

/-! ## Moves -/

/-- Whether a token may begin what stands behind a definition: no rule that could end in front of it
goes on with such a token. -/
def mayFollow : TokenKind → Bool
  | .symbol mark => mark == .semicolon || mark == .closeBrace
  | .keyword word => word != .case && word != .default
  | _ => false

/-- A place further down where tokens may stand, with what stands behind them there. -/
structure Move where
  lines : Nat
  bytes : Nat
  behind : List Token
  follows : ∀ token ∈ behind.head?, mayFollow token.kind = true

variable {move : Move} {tokens : List Token}

namespace Move

/-- The tokens carried to the place. -/
def carry (move : Move) (tokens : List Token) : List Token :=
  tokens.map (.shift move.lines move.bytes) ++ move.behind

@[simp]
theorem carry_cons (token : Token) (rest : List Token) :
    move.carry (token :: rest) = token.shift move.lines move.bytes :: move.carry rest := rfl

/-- A line that is read off the next token has moved with this token. -/
theorem lineAhead_carry_cons {token : Token} {rest : List Token} :
    lineAhead (token.shift move.lines move.bytes :: move.carry rest) =
      lineAhead (token :: rest) + move.lines := rfl

theorem length_le_carry : tokens.length ≤ (move.carry tokens).length := by
  simp [carry]

theorem isAhead_carry {mark : Symbol} (h : mayFollow (.symbol mark) = false) :
    isAhead mark (move.carry tokens) = isAhead mark tokens := by
  cases tokens with
  | cons token rest => rfl
  | nil =>
    show isAhead mark move.behind = false
    cases hBehind : move.behind with
    | nil => rfl
    | cons token rest =>
      have hFollows := move.follows token (by rw [hBehind]; rfl)
      simp only [isAhead, beq_eq_false_iff_ne]
      rintro hKind
      rw [hKind, h] at hFollows
      cases hFollows

theorem isLabelAhead_carry : isLabelAhead (move.carry tokens) = isLabelAhead tokens := by
  cases tokens with
  | cons token rest => rfl
  | nil =>
    show isLabelAhead move.behind = false
    cases hBehind : move.behind with
    | nil => rfl
    | cons token rest =>
      have hFollows := move.follows token (by rw [hBehind]; rfl)
      simp only [isLabelAhead, isKeywordAhead, Bool.or_eq_false_iff, beq_eq_false_iff_ne]
      constructor <;> rintro hKind <;> rw [hKind] at hFollows <;> cases hFollows

theorem carry_tail {mark : Symbol} (h : isAhead mark tokens = true) :
    (move.carry tokens).tail = move.carry tokens.tail := by
  cases tokens with
  | nil => cases h
  | cons token rest => rfl

end Move

/-- A rule that has read a value reads it at the other place as well, made into `moved`. -/
def Carries (move : Move) (moved : α → α) (result result' : Except Fault (Read α)) : Prop :=
  ∀ value rest, result = .ok (value, rest) → result' = .ok (moved value, move.carry rest)

namespace Carries

variable {moved : α → α} {moved' : β → β} {result : Except Fault (Read α)}

theorem error {fault : Fault} : Carries move moved (.error fault) result := nofun

theorem pure {value value' : α} (h : value' = moved value) :
    Carries move moved (Pure.pure (value, tokens)) (Pure.pure (value', move.carry tokens)) := by
  rintro _ _ ⟨⟩
  rw [h]
  rfl

theorem bind {first first' : Except Fault (Read α)} {next next' : Read α → Except Fault (Read β)}
    (hFirst : Carries move moved first first')
    (hNext : ∀ value mid, Carries move moved' (next (value, mid))
      (next' (moved value, move.carry mid))) :
    Carries move moved' (first >>= next) (first' >>= next') := by
  intro value rest h
  obtain ⟨⟨found, mid⟩, hFound, h⟩ := bind_eq_ok_iff.mp h
  rw [hFirst found mid hFound]
  exact hNext found mid value rest h

/-- What has been found by looking ahead is found at the other place. -/
theorem lookAhead {γ : Type} {first first' : Except Fault γ}
    {next next' : γ → Except Fault (Read α)}
    (hFirst : ∀ found, first = .ok found → first' = .ok found)
    (hNext : ∀ found, Carries move moved (next found) (next' found)) :
    Carries move moved (first >>= next) (first' >>= next') := by
  intro value rest h
  obtain ⟨found, hFound, h⟩ := bind_eq_ok_iff.mp h
  rw [hFirst found hFound]
  exact hNext found value rest h

theorem ite {condition : Prop} [Decidable condition] {yes yes' no no' : Except Fault (Read α)}
    (hYes : condition → Carries move moved yes yes')
    (hNo : ¬condition → Carries move moved no no') :
    Carries move moved (if condition then yes else no) (if condition then yes' else no') := by
  split
  · exact hYes ‹_›
  · exact hNo ‹_›

end Carries

/-! ## Single tokens -/

theorem symbol_carried {mark : Symbol} {moved : α → α}
    {next next' : List Token → Except Fault (Read α)}
    (hNext : ∀ mid, Carries move moved (next mid) (next' (move.carry mid))) :
    Carries move moved (symbol mark tokens >>= next)
      (symbol mark (move.carry tokens) >>= next') := by
  intro value rest h
  obtain ⟨mid, hMid, hRead⟩ := bind_eq_ok_iff.mp h
  obtain ⟨token, rfl, hKind⟩ := symbol_eq_ok_iff.mp hMid
  have hMark : symbol mark (move.carry (token :: mid)) = .ok (move.carry mid) :=
    symbol_eq_ok_iff.mpr ⟨_, rfl, hKind⟩
  rw [hMark]
  exact hNext mid value rest hRead

theorem keyword_carried {word : Keyword} {moved : α → α}
    {next next' : List Token → Except Fault (Read α)}
    (hNext : ∀ mid, Carries move moved (next mid) (next' (move.carry mid))) :
    Carries move moved (keyword word tokens >>= next)
      (keyword word (move.carry tokens) >>= next') := by
  intro value rest h
  obtain ⟨mid, hMid, hRead⟩ := bind_eq_ok_iff.mp h
  obtain ⟨token, rfl, hKind⟩ := keyword_eq_ok_iff.mp hMid
  have hWord : keyword word (move.carry (token :: mid)) = .ok (move.carry mid) :=
    keyword_eq_ok_iff.mpr ⟨_, rfl, hKind⟩
  rw [hWord]
  exact hNext mid value rest hRead

theorem identifier_carried :
    Carries move id (identifier tokens) (identifier (move.carry tokens)) := by
  intro name rest h
  obtain ⟨token, rfl, hKind⟩ := identifier_eq_ok_iff.mp h
  exact identifier_eq_ok_iff.mpr ⟨_, rfl, hKind⟩

theorem number_carried : Carries move id (number tokens) (number (move.carry tokens)) := by
  intro value rest h
  obtain ⟨token, rfl, hKind⟩ := number_eq_ok_iff.mp h
  exact number_eq_ok_iff.mpr ⟨_, rfl, hKind⟩

theorem size_carried : Carries move id (size tokens) (size (move.carry tokens)) := by
  intro bound rest h
  unfold size at h
  split at h
  · split at h <;> cases h
    exact if_pos ‹_›
  · cases h
    rfl
  · cases h

/-! ## Declarators, constants and enumerations -/

theorem typeName_carried : Carries move id (typeName tokens) (typeName (move.carry tokens)) := by
  intro name rest h
  unfold typeName at h
  split at h
  · cases h
    rfl
  · cases h
    rfl
  · cases h
    rfl
  · cases h
  · rename_i word _ _ _ _ _ _ _
    split at h
    · rename_i hPrimitive
      cases h
      cases word <;> cases hPrimitive <;> rfl
    · cases h
  · cases h

theorem suffix_carried {type : String} :
    Carries move id (suffix type tokens) (suffix type (move.carry tokens)) := by
  unfold suffix
  rw [move.isAhead_carry rfl, move.isAhead_carry rfl]
  refine .ite (fun hBracket => ?_) fun _ => .ite (fun hAngle => ?_) fun _ => .pure rfl
  · rw [Move.carry_tail hBracket]
    exact .bind size_carried fun _ _ => symbol_carried fun _ => .pure rfl
  · rw [Move.carry_tail hAngle, move.isAhead_carry rfl]
    refine .ite (fun hClose => ?_) fun _ => ?_
    · rw [Move.carry_tail hClose]
      exact .pure rfl
    · exact .bind size_carried fun _ _ => symbol_carried fun _ => .pure rfl

theorem declarator_carried :
    Carries move id (declarator tokens) (declarator (move.carry tokens)) := by
  unfold declarator
  refine .bind typeName_carried fun type mid => ?_
  dsimp only
  rw [move.isAhead_carry rfl]
  refine .ite (fun hStar => ?_) fun _ => ?_
  · rw [Move.carry_tail hStar]
    exact .bind identifier_carried fun _ _ => symbol_carried fun _ => .pure rfl
  · exact .bind identifier_carried fun _ _ => .bind suffix_carried fun _ _ =>
      symbol_carried fun _ => .pure rfl

theorem constant_carried {line : Nat} :
    Carries move (fun declared => { declared with line := declared.line + move.lines })
      (constant line tokens) (constant (line + move.lines) (move.carry tokens)) := by
  unfold constant
  exact .bind identifier_carried fun _ _ => symbol_carried fun _ =>
    .bind number_carried fun _ _ => symbol_carried fun _ => .pure rfl

theorem typedef_carried {line : Nat} :
    Carries move (fun declared => { declared with line := declared.line + move.lines })
      (typedef line tokens) (typedef (line + move.lines) (move.carry tokens)) := by
  unfold typedef
  exact .bind declarator_carried fun _ _ => .pure rfl

theorem enumSource_carried :
    Carries move id (enumSource tokens) (enumSource (move.carry tokens)) := by
  intro source rest h
  unfold enumSource at h
  split at h <;> cases h <;> rfl

theorem enumValue_carried :
    Carries move (EnumValue.shift move.lines) (enumValue tokens)
      (enumValue (move.carry tokens)) := by
  cases tokens with
  | nil => exact .error
  | cons token rest =>
    unfold enumValue
    refine .bind identifier_carried fun _ _ => symbol_carried fun _ =>
      .bind enumSource_carried fun _ mid => ?_
    dsimp only
    rw [move.isAhead_carry rfl]
    split
    · rw [Move.carry_tail ‹_›]
      exact .pure rfl
    · exact .pure rfl

/-! ## Bodies -/

/-- Items that are read at the other place are read one behind the other there.  No item is read
where there are no tokens, so a body does not go on with the tokens behind it. -/
theorem itemsUntilClose_carried {moved : α → α} {item item' : List Token → Except Fault (Read α)}
    (hNil : ∀ value rest, item [] ≠ .ok (value, rest))
    (hItem : ∀ tokens, Carries move moved (item tokens) (item' (move.carry tokens)))
    {bound bound' : Nat} (hBound : bound ≤ bound') :
    Carries move (List.map moved) (itemsUntilClose item bound tokens)
      (itemsUntilClose item' bound' (move.carry tokens)) := by
  induction bound generalizing bound' tokens with
  | zero => exact .error
  | succ bound ih =>
    obtain ⟨bound', rfl⟩ := Nat.exists_eq_succ_of_ne_zero (Nat.ne_zero_of_lt hBound)
    cases tokens with
    | nil =>
      rintro values rest h
      obtain ⟨⟨value, mid⟩, hRead, -⟩ := bind_eq_ok_iff.mp h
      exact absurd hRead (hNil value mid)
    | cons token others =>
      refine .ite (fun _ => .pure rfl) fun _ => ?_
      exact .bind (hItem _) fun _ _ =>
        .bind (ih (Nat.le_of_succ_le_succ hBound)) fun _ _ => .pure rfl

theorem body_carried {moved : α → α} {item item' : List Token → Except Fault (Read α)}
    (hNil : ∀ value rest, item [] ≠ .ok (value, rest))
    (hItem : ∀ tokens, Carries move moved (item tokens) (item' (move.carry tokens))) :
    Carries move (List.map moved) (body item tokens) (body item' (move.carry tokens)) := by
  unfold body
  exact .bind (itemsUntilClose_carried hNil hItem (Nat.succ_le_succ Move.length_le_carry))
    fun _ _ => symbol_carried fun _ => .pure rfl

theorem enum_carried {line : Nat} :
    Carries move
      (fun declared => ⟨declared.name, declared.values.map (EnumValue.shift move.lines),
        declared.line + move.lines⟩)
      (enum line tokens) (enum (line + move.lines) (move.carry tokens)) := by
  unfold enum
  exact .bind identifier_carried fun _ _ => symbol_carried fun _ =>
    .bind (body_carried nofun fun _ => enumValue_carried) fun _ _ =>
      symbol_carried fun _ => .pure rfl

/-! ## Unions -/

theorem switchType_carried :
    Carries move id (switchType tokens) (switchType (move.carry tokens)) := by
  intro type rest h
  unfold switchType at h
  split at h
  · cases h
    rfl
  · exact (keyword_carried fun _ => .pure rfl : Carries move id _ _) type rest h
  · cases h
    rfl
  · cases h
    rfl
  · cases h

theorem discriminant_carried :
    Carries move id (discriminant tokens) (discriminant (move.carry tokens)) := by
  unfold discriminant
  exact keyword_carried fun _ => symbol_carried fun _ => .bind switchType_carried fun _ _ =>
    .bind identifier_carried fun _ _ => symbol_carried fun _ => .pure rfl

theorem caseValue_carried :
    Carries move id (caseValue tokens) (caseValue (move.carry tokens)) := by
  intro value rest h
  unfold caseValue at h
  split at h <;> cases h <;> rfl

theorem label_carried : Carries move id (label tokens) (label (move.carry tokens)) := by
  cases tokens with
  | nil => exact .error
  | cons token rest =>
    unfold label
    refine .ite (fun _ => ?_) fun _ => ?_
    · exact symbol_carried fun _ => .pure rfl
    · exact keyword_carried fun _ => .bind caseValue_carried fun _ _ =>
        symbol_carried fun _ => .pure rfl

theorem labels_carried : Carries move id (labels tokens) (labels (move.carry tokens)) := by
  induction hLength : tokens.length using Nat.strong_induction_on generalizing tokens with
  | _ length ih =>
    rw [labels_eq, labels_eq, move.isLabelAhead_carry]
    refine .ite (fun _ => ?_) fun _ => .pure rfl
    intro found rest h
    obtain ⟨⟨first, mid⟩, hFirst, hRest⟩ := bind_eq_ok_iff.mp h
    obtain ⟨⟨others, behind⟩, hOthers, hDone⟩ := bind_eq_ok_iff.mp hRest
    cases hDone
    have hBegins : Begins (fun _ => True) Words.label := begins_label trivial trivial
    have hReads : Reads Words.label 1 tokens (label tokens) := label_reads
    have hCarried := ih mid.length (hLength ▸ hBegins.length_lt (hReads.sound hFirst)) rfl
    exact bind_eq_ok_iff.mpr ⟨_, label_carried _ _ hFirst,
      bind_eq_ok_iff.mpr ⟨_, hCarried _ _ hOthers, rfl⟩⟩

theorem arm_nil {field : List Token → Except Fault (Read Field)} {value : Arm}
    {rest : List Token} : arm field [] ≠ .ok (value, rest) := by
  intro h
  have hNone {found : List CaseLabel} {mid : List Token} (hSome : found ≠ []) :
      labels [] ≠ .ok (found, mid) := by
    intro hLabels
    rw [labels_eq] at hLabels
    cases hLabels
    exact hSome rfl
  cases arm_read h with
  | void hLabels hSome => exact hNone hSome hLabels
  | field hLabels hSome => exact hNone hSome hLabels

theorem arm_carried {field field' : List Token → Except Fault (Read Field)}
    (hNil : ∀ value rest, field [] ≠ .ok (value, rest))
    (hField : ∀ tokens, Carries move (Field.shift move.lines) (field tokens)
      (field' (move.carry tokens))) :
    Carries move (Arm.shift move.lines) (arm field tokens) (arm field' (move.carry tokens)) := by
  cases tokens with
  | nil => exact fun _ _ h => absurd h arm_nil
  | cons token others =>
    refine .bind labels_carried fun found mid => .ite (fun _ => .error) fun _ => ?_
    cases mid with
    | nil =>
      rintro value rest h
      obtain ⟨⟨content, behind⟩, hContent, -⟩ := bind_eq_ok_iff.mp h
      exact absurd hContent (hNil content behind)
    | cons next behind =>
      refine .ite (fun _ => ?_) fun _ => ?_
      · exact symbol_carried fun _ => .pure rfl
      · exact .bind (hField _) fun _ _ => .pure rfl

/-! ## Fields -/

/-- The search for a name ends at the brace that closes the body. -/
theorem nameBehind_carried {depth : Nat} {name : String} (h : nameBehind depth tokens = .ok name) :
    nameBehind depth (move.carry tokens) = .ok name := by
  induction tokens generalizing depth with
  | nil => cases h
  | cons token rest ih =>
    rw [Move.carry_cons]
    have hKind : (token.shift move.lines move.bytes).kind = token.kind := token.kind_shift
    by_cases hOpen : token.kind = .symbol .openBrace
    · rw [nameBehind_open hOpen] at h
      rw [nameBehind_open (hKind.trans hOpen)]
      exact ih h
    by_cases hClose : token.kind = .symbol .closeBrace
    · cases depth with
      | succ depth =>
        rw [nameBehind_close_succ hClose] at h
        rw [nameBehind_close_succ (hKind.trans hClose)]
        exact ih h
      | zero =>
        rw [nameBehind_close_zero hClose] at h
        rw [nameBehind_close_zero (hKind.trans hClose)]
        cases hName : identifier rest with
        | error fault =>
          rw [hName] at h
          cases h
        | ok found =>
          rw [hName] at h
          rw [identifier_carried _ _ hName]
          exact h
    · rw [nameBehind_of_ne hOpen hClose] at h
      rw [nameBehind_of_ne (hKind.trans_ne hOpen) (hKind.trans_ne hClose)]
      exact ih h

theorem inlineTail_carried {type : String} :
    Carries move id (inlineTail type tokens) (inlineTail type (move.carry tokens)) := by
  unfold inlineTail
  exact .bind identifier_carried fun _ _ => .bind suffix_carried fun _ _ =>
    symbol_carried fun _ => .pure rfl

theorem structItem_carried {field field' : List Token → Except Fault (Read Field)}
    (hField : Carries move (Field.shift move.lines) (field tokens) (field' (move.carry tokens))) :
    Carries move (Field.shift move.lines) (structItem field tokens)
      (structItem field' (move.carry tokens)) := by
  cases tokens with
  | nil => exact .error
  | cons token rest => exact hField

theorem field_nil {depth : Nat} {parent : String} {value : Field} {rest : List Token} :
    field depth parent [] ≠ .ok (value, rest) := by
  cases depth <;> exact nofun

theorem field_carried {depth depth' : Nat} (hDepth : depth ≤ depth') (parent : String)
    (tokens : List Token) :
    Carries move (Field.shift move.lines) (field depth parent tokens)
      (field depth' parent (move.carry tokens)) := by
  induction depth generalizing depth' parent tokens with
  | zero => exact .error
  | succ depth ih =>
    obtain ⟨depth', rfl⟩ := Nat.exists_eq_succ_of_ne_zero (Nat.ne_zero_of_lt hDepth)
    have hDepth := Nat.le_of_succ_le_succ hDepth
    cases tokens with
    | nil => exact fun _ _ h => absurd h field_nil
    | cons token rest =>
      unfold field
      rw [Move.carry_cons, List.tail_cons, List.tail_cons, move.isAhead_carry rfl]
      refine .ite (fun hAhead => ?_) fun _ => .ite (fun _ => ?_) fun _ => ?_
      · obtain ⟨-, hOpen⟩ := Bool.and_eq_true_iff.mp hAhead
        rw [Move.carry_tail hOpen]
        refine .lookAhead (fun _ => nameBehind_carried) fun name => ?_
        refine .bind (body_carried nofun fun _ => structItem_carried (ih hDepth _ _)) fun _ _ => ?_
        refine .bind inlineTail_carried fun _ _ => .pure ?_
        simp [Field.shift, FieldType.shift, Struct.shift, shiftFields_eq, Move.lineAhead_carry_cons]
      · refine .bind discriminant_carried fun _ _ => symbol_carried fun _ => ?_
        refine .lookAhead (fun _ => nameBehind_carried) fun name => ?_
        refine .bind (body_carried (fun _ _ => arm_nil) fun _ =>
          arm_carried (fun _ _ => field_nil) (ih hDepth _)) fun _ _ => ?_
        refine .bind inlineTail_carried fun _ _ => .pure ?_
        simp [Field.shift, FieldType.shift, Union.shift, shiftArms_eq, Move.lineAhead_carry_cons]
      · exact .bind declarator_carried fun _ _ => .pure rfl

/-! ## Structures, unions and definitions -/

theorem struct_carried {line : Nat} :
    Carries move (Struct.shift move.lines) (struct line tokens)
      (struct (line + move.lines) (move.carry tokens)) := by
  unfold struct
  refine .bind identifier_carried fun _ _ => symbol_carried fun _ => ?_
  refine .bind (body_carried nofun fun _ =>
    structItem_carried (field_carried Move.length_le_carry _ _))
    fun _ _ => symbol_carried fun _ => .pure ?_
  simp [Struct.shift, shiftFields_eq]

theorem union_carried {line : Nat} :
    Carries move (Union.shift move.lines) (union line tokens)
      (union (line + move.lines) (move.carry tokens)) := by
  unfold union
  refine .bind identifier_carried fun _ _ => .bind discriminant_carried fun _ _ =>
    symbol_carried fun _ => ?_
  refine .bind (body_carried (fun _ _ => arm_nil) fun _ =>
    arm_carried (fun _ _ => field_nil) (field_carried Move.length_le_carry _))
    fun _ _ => symbol_carried fun _ => .pure ?_
  simp [Union.shift, shiftArms_eq]

/-- A definition is read the same further down, whatever may follow behind it. -/
theorem definition_carried :
    Carries move (Definition.shift move.lines) (definition tokens)
      (definition (move.carry tokens)) := by
  cases tokens with
  | nil => exact .error
  | cons token rest =>
    refine .ite (fun _ => ?_) fun _ => .ite (fun _ => ?_) fun _ => .ite (fun _ => ?_) fun _ =>
      .ite (fun _ => ?_) fun _ => .ite (fun _ => ?_) fun _ => .error
    · exact .bind constant_carried fun _ _ => .pure rfl
    · exact .bind typedef_carried fun _ _ => .pure rfl
    · exact .bind enum_carried fun _ _ => .pure rfl
    · exact .bind struct_carried fun _ _ => .pure rfl
    · exact .bind union_carried fun _ _ => .pure rfl

/-! ## Files -/

/-- A file without a namespace may stand behind a definition. -/
theorem Itemized.mayFollow {found : List Definition} {behind : List Token}
    (h : Itemized false tokens found behind) :
    ∀ token ∈ tokens.head?, Grammar.mayFollow token.kind = true := by
  cases h with
  | finish hEnd =>
    obtain rfl : tokens = [] := by simpa using hEnd
    simp
  | semicolon hToken =>
    rintro _ ⟨⟩
    rw [hToken]
    rfl
  | definition hFirst =>
    obtain ⟨-, word, inner, rfl, name, hName, hWord⟩ := exists_of_definition hFirst
    rintro _ ⟨⟩
    rw [hWord]
    simp only [List.mem_cons, List.not_mem_nil, or_false] at hName
    rcases hName with rfl | rfl | rfl | rfl | rfl <;> rfl

/-- Items are read in front of others as they are read alone, and the others behind them. -/
theorem Itemized.carried {found others : List Definition} {stop : List Token}
    (h : Itemized false tokens found stop)
    (hBehind : Itemized false move.behind others []) :
    Itemized false (move.carry tokens) (found.map (Definition.shift move.lines) ++ others) [] := by
  induction h with
  | finish hEnd =>
    rename_i behind
    obtain rfl : behind = [] := by simpa using hEnd
    exact hBehind
  | semicolon hToken _ ih => exact .semicolon hToken ih
  | definition hFirst _ ih => exact .definition (definition_carried _ _ hFirst) ih

end Grammar

end XdrBindings.Idl
