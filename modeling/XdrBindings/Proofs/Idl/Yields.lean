import XdrBindings.Proofs.Idl.Derivation
import XdrBindings.Proofs.Idl.Printer

/-!
# What the rules yield

The tokens of a source are words, numbers of 64 bits and marks, so each of them can be written.  A
rule that reads such tokens gives a tree that can be written, and it leaves tokens of the same sort.
So nothing is read that the language has no way to write.

## Main results

* `areWritable_of_tokenize` — the tokens of a source can be written.
* `field_yields`, `definition_yields` — a field and a definition that are read can be written.
* `FileRead.wellFormed` — so can all the definitions of a file.
-/

namespace XdrBindings.Idl

/-! ## The tokens of a source -/

theorem isWritable_wordKind {first : Char} {rest : Text}
    (hFirst : (first.isAlpha || first == '_') = true) (hRest : ∀ c ∈ rest, isWordChar c = true) :
    (wordKind (first :: rest)).isWritable = true := by
  unfold wordKind
  split
  · rfl
  · exact isIdentifier_iff.mpr ⟨first, rest, String.toList_ofList .., hFirst, hRest, ‹_›⟩

/-- A token that is read can be written. -/
theorem isWritable_of_lexemeAt {c : Char} {rest lexeme : Text} {kind : TokenKind}
    (h : lexemeAt c rest = .ok (kind, lexeme)) : kind.isWritable = true := by
  unfold lexemeAt at h
  split at h
  · rename_i hFirst
    cases h
    exact isWritable_wordKind hFirst fun d hd => (List.mem_takeWhile_imp hd : isWordChar d = true)
  split at h
  · cases hKind : (Numeral.ofText (c :: rest)).kind with
    | error cause => simp [hKind, Except.map] at h
    | ok found =>
      simp only [hKind, Except.map, Except.ok.injEq, Prod.mk.injEq] at h
      obtain ⟨rfl, -⟩ := h
      obtain ⟨rfl, hFits⟩ := kind_eq_number hKind
      exact hFits
  · split at h <;> cases h
    rfl

namespace Grammar

variable {α β : Type} {tokens rest : List Token}

/-- Tokens that can be written. -/
def AreWritable (tokens : List Token) : Prop := ∀ token ∈ tokens, token.kind.isWritable = true

/-- The tokens of a source in front of its end mark can be written. -/
theorem areWritable_of_tokenize {source : Text}
    (h : tokenize source = .ok (tokens ++ [endOf source]))
    (hKinds : ∀ token ∈ tokens, token.kind ≠ .finish) : AreWritable tokens := by
  intro token hToken
  obtain ⟨c, rest, hLexeme⟩ :=
    exists_lexemeAt_of_mem_tokenize h (List.mem_append_left _ hToken) (hKinds token hToken)
  exact isWritable_of_lexemeAt hLexeme

namespace AreWritable

theorem head {token : Token} (h : AreWritable (token :: rest)) : token.kind.isWritable = true :=
  h token List.mem_cons_self

theorem tail (h : AreWritable tokens) : AreWritable tokens.tail :=
  fun token hToken => h token (List.mem_of_mem_tail hToken)

theorem of_cons {token : Token} (h : AreWritable (token :: rest)) : AreWritable rest := h.tail

end AreWritable

/-! ## Rules -/

/-- A rule that has read a value has read one of which `holds` is true, and it has left tokens that
can be written. -/
def Yields (holds : α → Prop) (result : Except Fault (Read α)) : Prop :=
  ∀ value rest, result = .ok (value, rest) → holds value ∧ AreWritable rest

namespace Yields

variable {holds : α → Prop} {holds' : β → Prop} {result : Except Fault (Read α)}

theorem error {fault : Fault} : Yields holds (.error fault) := nofun

theorem pure {value : α} (hValue : holds value) (hTokens : AreWritable tokens) :
    Yields holds (Pure.pure (value, tokens)) := by
  rintro _ _ ⟨⟩
  exact ⟨hValue, hTokens⟩

theorem bind {next : Read α → Except Fault (Read β)} (hFirst : Yields holds result)
    (hNext : ∀ value mid, holds value → AreWritable mid → Yields holds' (next (value, mid))) :
    Yields holds' (result >>= next) := by
  intro value rest h
  obtain ⟨⟨found, mid⟩, hFound, h⟩ := bind_eq_ok_iff.mp h
  obtain ⟨hHolds, hMid⟩ := hFirst found mid hFound
  exact hNext found mid hHolds hMid value rest h

/-- What is found by looking ahead leaves the tokens where they are. -/
theorem lookAhead {γ : Type} {first : Except Fault γ} {next : γ → Except Fault (Read α)}
    (hNext : ∀ found, first = .ok found → Yields holds (next found)) :
    Yields holds (first >>= next) := by
  intro value rest h
  obtain ⟨found, hFound, h⟩ := bind_eq_ok_iff.mp h
  exact hNext found hFound value rest h

theorem ite {condition : Prop} [Decidable condition] {yes no : Except Fault (Read α)}
    (hYes : condition → Yields holds yes) (hNo : ¬condition → Yields holds no) :
    Yields holds (if condition then yes else no) := by
  split
  · exact hYes ‹_›
  · exact hNo ‹_›

end Yields

section

variable {holds : α → Prop} {next : List Token → Except Fault (Read α)}

theorem symbol_yields {mark : Symbol} (h : AreWritable tokens)
    (hNext : ∀ mid, AreWritable mid → Yields holds (next mid)) :
    Yields holds (symbol mark tokens >>= next) := by
  refine .lookAhead fun mid hMid => hNext mid ?_
  obtain ⟨token, rfl, -⟩ := symbol_eq_ok_iff.mp hMid
  exact h.of_cons

theorem keyword_yields {word : Keyword} (h : AreWritable tokens)
    (hNext : ∀ mid, AreWritable mid → Yields holds (next mid)) :
    Yields holds (keyword word tokens >>= next) := by
  refine .lookAhead fun mid hMid => hNext mid ?_
  obtain ⟨token, rfl, -⟩ := keyword_eq_ok_iff.mp hMid
  exact h.of_cons

end

theorem identifier_yields (h : AreWritable tokens) :
    Yields (isIdentifier · = true) (identifier tokens) := by
  intro name rest hRead
  obtain ⟨token, rfl, hKind⟩ := identifier_eq_ok_iff.mp hRead
  have hToken := h.head
  rw [hKind] at hToken
  exact ⟨hToken, h.of_cons⟩

theorem number_yields (h : AreWritable tokens) : Yields (fitsWord · = true) (number tokens) := by
  intro value rest hRead
  obtain ⟨token, rfl, hKind⟩ := number_eq_ok_iff.mp hRead
  have hToken := h.head
  rw [hKind] at hToken
  exact ⟨hToken, h.of_cons⟩

theorem size_yields (h : AreWritable tokens) : Yields Size.WellFormed (size tokens) := by
  intro bound rest hRead
  unfold size at hRead
  split at hRead
  · split at hRead <;> cases hRead
    obtain ⟨-, hLe⟩ := fitsWord_iff.mp h.head
    refine ⟨?_, h.of_cons⟩
    show Int.toNat _ < 2 ^ 63
    omega
  · cases hRead
    exact ⟨h.head, h.of_cons⟩
  · cases hRead

/-! ## Declarators, constants and enumerations -/

theorem isTypeName_name {primitive : Primitive} (h : primitive ≠ .void) :
    IsTypeName primitive.name := .inr ⟨primitive, h, rfl⟩

theorem typeName_yields (h : AreWritable tokens) : Yields IsTypeName (typeName tokens) := by
  intro name rest hRead
  unfold typeName at hRead
  split at hRead
  · cases hRead
    exact ⟨.inl h.head, h.of_cons⟩
  · cases hRead
    exact ⟨isTypeName_name nofun, h.of_cons.of_cons⟩
  · cases hRead
    exact ⟨isTypeName_name nofun, h.of_cons.of_cons⟩
  · cases hRead
  · split at hRead
    · rename_i hPrimitive
      cases hRead
      refine ⟨isTypeName_name ?_, h.of_cons⟩
      rintro rfl
      unfold primitiveOf? at hPrimitive
      split at hPrimitive <;> cases hPrimitive
    · cases hRead
  · cases hRead

theorem angleShape_fits {type : String} {bound : Option Size}
    (h : ∀ size ∈ bound, size.WellFormed) : (angleShape type bound).Fits type := by
  unfold angleShape
  split
  · exact ⟨‹_›, h⟩
  · exact ⟨‹_›, h⟩

theorem angleShape_ne_optional (type : String) (bound : Option Size) :
    angleShape type bound ≠ .optional := by
  unfold angleShape
  split <;> nofun

theorem suffix_yields {type : String} (h : AreWritable tokens) :
    Yields (fun shape => shape.Fits type ∧ shape ≠ .optional) (suffix type tokens) := by
  refine .ite (fun _ => ?_) fun _ => .ite (fun _ => .ite (fun _ => ?_) fun _ => ?_) fun _ => ?_
  · exact .bind (size_yields h.tail) fun _ _ hSize hMid => symbol_yields hMid fun _ hRest =>
      .pure ⟨hSize, nofun⟩ hRest
  · exact .pure ⟨angleShape_fits nofun, angleShape_ne_optional _ _⟩ h.tail.tail
  · refine .bind (size_yields h.tail) fun _ _ hSize hMid => symbol_yields hMid fun _ hRest =>
      .pure ⟨angleShape_fits ?_, angleShape_ne_optional _ _⟩ hRest
    rintro _ ⟨⟩
    exact hSize
  · exact .pure ⟨trivial, nofun⟩ h

/-- Whether a declarator can be written. -/
structure Declarator.WellFormed (read : Declarator) : Prop where
  name : isIdentifier read.name = true
  type : IsTypeName read.type
  shape : read.shape.Fits read.type

theorem declarator_yields (h : AreWritable tokens) :
    Yields Declarator.WellFormed (declarator tokens) := by
  refine .bind (typeName_yields h) fun type mid hType hMid => .ite (fun _ => ?_) fun _ => ?_
  · exact .bind (identifier_yields hMid.tail) fun _ _ hName hMid => symbol_yields hMid
      fun _ hRest => .pure ⟨hName, hType, trivial⟩ hRest
  · exact .bind (identifier_yields hMid) fun _ _ hName hMid => .bind (suffix_yields hMid)
      fun _ _ hShape hMid => symbol_yields hMid fun _ hRest =>
        .pure ⟨hName, hType, hShape.1⟩ hRest

theorem constant_yields {line : Nat} (h : AreWritable tokens) :
    Yields (fun declared => (Definition.constant declared).WellFormed) (constant line tokens) :=
  .bind (identifier_yields h) fun _ _ hName hMid => symbol_yields hMid fun _ hMid =>
    .bind (number_yields hMid) fun _ _ hValue hMid => symbol_yields hMid fun _ hRest =>
      .pure (.constant hName hValue) hRest

theorem typedef_yields {line : Nat} (h : AreWritable tokens) :
    Yields (fun declared => (Definition.typedef declared).WellFormed) (typedef line tokens) :=
  .bind (declarator_yields h) fun _ _ hRead hRest =>
    .pure (.typedef hRead.name hRead.type hRead.shape) hRest

theorem enumSource_yields (h : AreWritable tokens) :
    Yields EnumSource.WellFormed (enumSource tokens) := by
  intro source rest hRead
  unfold enumSource at hRead
  split at hRead <;> cases hRead
  · exact ⟨h.head, h.of_cons⟩
  · exact ⟨⟨h.head, rfl⟩, h.of_cons⟩

theorem enumValue_yields (h : AreWritable tokens) :
    Yields EnumValue.WellFormed (enumValue tokens) := by
  refine .bind (identifier_yields h) fun _ _ hName hMid => symbol_yields hMid fun _ hMid =>
    .bind (enumSource_yields hMid) fun _ mid hSource hMid => .pure ⟨hName, hSource⟩ ?_
  split
  · exact hMid.tail
  · exact hMid

/-! ## Bodies -/

section

variable {holds : α → Prop} {item : List Token → Except Fault (Read α)}

theorem itemsUntilClose_yields
    (hItem : ∀ tokens, AreWritable tokens → Yields holds (item tokens)) (bound : Nat)
    (h : AreWritable tokens) :
    Yields (fun values => ∀ value ∈ values, holds value) (itemsUntilClose item bound tokens) := by
  induction bound generalizing tokens with
  | zero => exact .error
  | succ bound ih =>
    refine .ite (fun _ => .pure (List.forall_mem_nil _) h) fun _ => ?_
    exact .bind (hItem tokens h) fun _ _ hFirst hMid => .bind (ih hMid) fun _ _ hOthers hRest =>
      .pure (List.forall_mem_cons.mpr ⟨hFirst, hOthers⟩) hRest

/-- What each item yields holds of all items of a body. -/
theorem body_yields (hItem : ∀ tokens, AreWritable tokens → Yields holds (item tokens))
    (h : AreWritable tokens) :
    Yields (fun values => ∀ value ∈ values, holds value) (body item tokens) :=
  .bind (itemsUntilClose_yields hItem _ h) fun _ _ hValues hMid => symbol_yields hMid
    fun _ hRest => .pure hValues hRest

end

theorem enum_yields {line : Nat} (h : AreWritable tokens) :
    Yields (fun declared => (Definition.enum declared).WellFormed) (enum line tokens) :=
  .bind (identifier_yields h) fun _ _ hName hMid => symbol_yields hMid fun _ hMid =>
    .bind (body_yields (fun _ => enumValue_yields) hMid) fun _ _ hValues hMid =>
      symbol_yields hMid fun _ hRest => .pure (.enum hName hValues) hRest

/-! ## Unions -/

theorem switchType_yields (h : AreWritable tokens) :
    Yields SwitchType.WellFormed (switchType tokens) := by
  intro type rest hRead
  unfold switchType at hRead
  split at hRead
  · cases hRead
    exact ⟨trivial, h.of_cons⟩
  · have hType : SwitchType.unsignedInt.WellFormed := trivial
    exact keyword_yields h.of_cons (fun _ hRest => .pure hType hRest) type rest hRead
  · cases hRead
    exact ⟨trivial, h.of_cons⟩
  · cases hRead
    exact ⟨h.head, h.of_cons⟩
  · cases hRead

theorem discriminant_yields (h : AreWritable tokens) :
    Yields Discriminant.WellFormed (discriminant tokens) :=
  keyword_yields h fun _ hMid => symbol_yields hMid fun _ hMid =>
    .bind (switchType_yields hMid) fun _ _ hType hMid =>
      .bind (identifier_yields hMid) fun _ _ hName hMid =>
        symbol_yields hMid fun _ hRest => .pure ⟨hName, hType⟩ hRest

theorem caseValue_yields (h : AreWritable tokens) :
    Yields CaseLabel.WellFormed (caseValue tokens) := by
  intro label rest hRead
  unfold caseValue at hRead
  split at hRead <;> cases hRead
  · exact ⟨h.head, h.of_cons⟩
  · exact ⟨h.head, h.of_cons⟩

theorem label_yields (h : AreWritable tokens) : Yields CaseLabel.WellFormed (label tokens) := by
  have hDefault : CaseLabel.default.WellFormed := trivial
  refine .ite (fun _ => ?_) fun _ => ?_
  · exact symbol_yields h.tail fun _ hRest => .pure hDefault hRest
  · exact keyword_yields h fun _ hMid => .bind (caseValue_yields hMid) fun _ _ hLabel hMid =>
      symbol_yields hMid fun _ hRest => .pure hLabel hRest

theorem of_label? {found : CaseLabel} (h : AreWritable tokens)
    (hRead : label? tokens = .ok (some (found, rest))) : found.WellFormed ∧ AreWritable rest := by
  rw [label?_eq] at hRead
  split at hRead
  · cases hLabel : label tokens with
    | error fault =>
      rw [hLabel] at hRead
      cases hRead
    | ok read =>
      rw [hLabel] at hRead
      cases hRead
      exact label_yields h found rest hLabel
  · cases hRead

theorem labels_yields (h : AreWritable tokens) :
    Yields (fun found => ∀ label ∈ found, label.WellFormed) (labels tokens) := by
  fun_induction labels tokens with
  | case1 => exact .error
  | case2 => exact .pure (List.forall_mem_nil _) h
  | case3 tokens label rest hLabel ih =>
    obtain ⟨hFirst, hRest⟩ := of_label? h hLabel
    exact .bind (ih hRest) fun _ _ hOthers hRest =>
      .pure (List.forall_mem_cons.mpr ⟨hFirst, hOthers⟩) hRest

section

variable {parent : String} {field : List Token → Except Fault (Read Field)}

theorem arm_yields
    (hField : ∀ tokens, AreWritable tokens → Yields (Field.WellFormed parent) (field tokens))
    (h : AreWritable tokens) : Yields (Arm.WellFormed parent) (arm field tokens) := by
  refine .bind (labels_yields h) fun found mid hLabels hMid => .ite (fun _ => .error)
    fun hSome => ?_
  have hSome : found ≠ [] := fun hNil => hSome (by rw [hNil]; rfl)
  refine .ite (fun _ => ?_) fun _ => ?_
  · exact symbol_yields hMid.tail fun _ hRest => .pure (.void hSome hLabels) hRest
  · exact .bind (hField mid hMid) fun _ _ hContent hRest =>
      .pure (.field hSome hLabels hContent) hRest

theorem structItem_yields
    (hField : ∀ tokens, AreWritable tokens → Yields (Field.WellFormed parent) (field tokens))
    (tokens : List Token) (h : AreWritable tokens) :
    Yields (Field.WellFormed parent) (structItem field tokens) :=
  .ite (fun _ => .error) fun _ => hField tokens h

end

/-! ## Fields -/

/-- The name behind a body is a name of the tokens. -/
theorem isIdentifier_of_nameBehind {depth : Nat} {name : String} (h : AreWritable tokens)
    (hName : nameBehind depth tokens = .ok name) : isIdentifier name = true := by
  induction tokens generalizing depth with
  | nil => cases hName
  | cons token rest ih =>
    by_cases hOpen : token.kind = .symbol .openBrace
    · rw [nameBehind_open hOpen] at hName
      exact ih h.of_cons hName
    by_cases hClose : token.kind = .symbol .closeBrace
    · cases depth with
      | succ depth =>
        rw [nameBehind_close_succ hClose] at hName
        exact ih h.of_cons hName
      | zero =>
        rw [nameBehind_close_zero hClose] at hName
        cases hRead : identifier rest with
        | error fault =>
          rw [hRead] at hName
          cases hName
        | ok read =>
          rw [hRead] at hName
          cases hName
          exact (identifier_yields h.of_cons _ _ hRead).1
    · rw [nameBehind_of_ne hOpen hClose] at hName
      exact ih h.of_cons hName

/-- What can wrap a type with a name can wrap one written in place, unless the type is optional or
named as strings are. -/
theorem fitsInline_of_fits {type : String} {shape : Shape} (h : shape.Fits type)
    (hOptional : shape ≠ .optional) (hString : type ≠ Primitive.string.name) :
    shape.FitsInline := by
  cases shape with
  | optional => exact hOptional rfl
  | variableArray bound => exact h.2
  | boundedString bound => exact hString h.1
  | _ => exact h

theorem inlineTail_yields {type : String} (hString : type ≠ Primitive.string.name)
    (h : AreWritable tokens) : Yields Shape.FitsInline (inlineTail type tokens) :=
  .bind (identifier_yields h) fun _ _ _ hMid => .bind (suffix_yields hMid)
    fun _ _ hShape hMid => symbol_yields hMid fun _ hRest =>
      .pure (fitsInline_of_fits hShape.1 hShape.2 hString) hRest

/-- Each field that is read can be written in the type around it.  The induction is on the bound for
the depth, and what stands in place is read with the name that comes from its own. -/
theorem field_yields (depth : Nat) (parent : String) (tokens : List Token)
    (h : AreWritable tokens) : Yields (Field.WellFormed parent) (field depth parent tokens) := by
  induction depth generalizing parent tokens with
  | zero => exact .error
  | succ depth ih =>
    refine .ite (fun _ => ?_) fun _ => .ite (fun _ => ?_) fun _ => ?_
    · refine .lookAhead fun name hBehind => ?_
      have hName := isIdentifier_of_nameBehind h.tail.tail hBehind
      exact .bind (body_yields (structItem_yields (ih _)) h.tail.tail) fun _ _ hFields hMid =>
        .bind (inlineTail_yields (inlineName_ne_string parent hName) hMid) fun _ _ hShape hRest =>
          .pure (.struct hName hShape hFields) hRest
    · refine .bind (discriminant_yields h.tail) fun switch mid hSwitch hMid =>
        symbol_yields hMid fun inner hInner => .lookAhead fun name hBehind => ?_
      have hName := isIdentifier_of_nameBehind hInner hBehind
      exact .bind (body_yields (fun _ => arm_yields (ih _)) hInner) fun _ _ hArms hMid =>
        .bind (inlineTail_yields (inlineName_ne_string parent hName) hMid) fun _ _ hShape hRest =>
          .pure (.union hName hShape hSwitch hArms) hRest
    · exact .bind (declarator_yields h) fun _ _ hRead hRest =>
        .pure (.named hRead.name hRead.type hRead.shape) hRest

/-! ## Definitions and files -/

theorem struct_yields {line : Nat} (h : AreWritable tokens) :
    Yields (fun declared => (Definition.struct declared).WellFormed) (struct line tokens) :=
  .bind (identifier_yields h) fun _ _ hName hMid => symbol_yields hMid fun _ hMid =>
    .bind (body_yields (structItem_yields (field_yields _ _)) hMid) fun _ _ hFields hMid =>
      symbol_yields hMid fun _ hRest => .pure (.struct hName hFields) hRest

theorem union_yields {line : Nat} (h : AreWritable tokens) :
    Yields (fun declared => (Definition.union declared).WellFormed) (union line tokens) :=
  .bind (identifier_yields h) fun _ _ hName hMid => .bind (discriminant_yields hMid)
    fun _ _ hSwitch hMid => symbol_yields hMid fun _ hMid =>
      .bind (body_yields (fun _ => arm_yields (field_yields _ _)) hMid) fun _ _ hArms hMid =>
        symbol_yields hMid fun _ hRest => .pure (.union hName hSwitch hArms) hRest

theorem definition_yields (h : AreWritable tokens) :
    Yields Definition.WellFormed (definition tokens) := by
  refine .ite (fun _ => ?_) fun _ => .ite (fun _ => ?_) fun _ => .ite (fun _ => ?_) fun _ =>
    .ite (fun _ => ?_) fun _ => .ite (fun _ => ?_) fun _ => .error
  · exact .bind (constant_yields h.tail) fun _ _ => .pure
  · exact .bind (typedef_yields h.tail) fun _ _ => .pure
  · exact .bind (enum_yields h.tail) fun _ _ => .pure
  · exact .bind (struct_yields h.tail) fun _ _ => .pure
  · exact .bind (union_yields h.tail) fun _ _ => .pure

theorem Itemized.wellFormed {inNameSpace : Bool} {found : List Definition} {behind : List Token}
    (h : Itemized inNameSpace tokens found behind) (hTokens : AreWritable tokens) :
    ∀ definition ∈ found, definition.WellFormed := by
  induction h with
  | finish => exact List.forall_mem_nil _
  | semicolon _ _ ih => exact ih hTokens.of_cons
  | definition hFirst _ ih =>
    obtain ⟨hDefinition, hMid⟩ := definition_yields hTokens _ _ hFirst
    exact List.forall_mem_cons.mpr ⟨hDefinition, ih hMid⟩

theorem FileRead.wellFormed {nameSpace : Option String} {found : List Definition}
    {behind : List Token} (h : FileRead tokens nameSpace found behind)
    (hTokens : AreWritable tokens) : ∀ definition ∈ found, definition.WellFormed := by
  cases h with
  | plain _ hItems => exact hItems.wellFormed hTokens
  | nameSpace _ _ _ hItems => exact hItems.wellFormed hTokens.of_cons.of_cons.of_cons

end Grammar

end XdrBindings.Idl
