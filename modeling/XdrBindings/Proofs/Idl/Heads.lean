import XdrBindings.Proofs.Idl.Derivation
import XdrBindings.Proofs.Idl.Promoted

/-!
# The definitions that tokens begin

Each definition and each type written in place begins with a keyword that begins nothing else.  So
the definitions that tokens declare can be told from the keywords alone, and how deep each is
written from the braces around it.  The rules of the grammar are shown to read just these.

## Main results

* `Definition.map_snd_outline` — the outline of a definition has one head for each entry that it
  gives.
* `field_outlined`, `definition_outlined` — fields and definitions read what their tokens begin.
* `FileRead.outlined` — so does a file, up to the brace that closes its namespace.
-/

namespace XdrBindings.Idl

open scoped Computability

/-! ## Heads -/

/-- The keyword and the line that a definition begins with. -/
structure Head where
  kind : DefinitionKind
  line : Nat
  deriving DecidableEq, Repr

/-- The sort of definition that a token begins. -/
def TokenKind.begins? : TokenKind → Option DefinitionKind
  | .keyword .const => some .constant
  | .keyword .typedef => some .typedef
  | .keyword .enum => some .enum
  | .keyword .struct => some .struct
  | .keyword .union => some .union
  | _ => none

/-- The head of a definition that a token begins. -/
def Token.head? (token : Token) : Option Head :=
  token.kind.begins?.map (⟨·, token.position.line⟩)

/-- The heads of the definitions that tokens begin. -/
def heads (tokens : List Token) : List Head := tokens.filterMap Token.head?

/-- How many braces are open behind a token. -/
def TokenKind.depthBehind (depth : Nat) : TokenKind → Nat
  | .symbol .openBrace => depth + 1
  | .symbol .closeBrace => depth - 1
  | _ => depth

/-- The heads of the definitions that tokens begin, each with the number of braces that are open
where it stands. -/
def outline : (depth : Nat) → List Token → List (Nat × Head)
  | _, [] => []
  | depth, token :: rest =>
    token.head?.toList.map (Prod.mk depth) ++ outline (token.kind.depthBehind depth) rest

/-- The outline of what stands behind other tokens depends on these by a depth only. -/
theorem exists_outline_append (depth : Nat) (front back : List Token) :
    ∃ behind, outline depth (front ++ back) = outline depth front ++ outline behind back := by
  induction front generalizing depth with
  | nil => exact ⟨depth, rfl⟩
  | cons token front ih =>
    obtain ⟨behind, hOutline⟩ := ih (token.kind.depthBehind depth)
    refine ⟨behind, ?_⟩
    rw [List.cons_append, outline, outline, hOutline, List.append_assoc]

theorem map_snd_outline (depth : Nat) (tokens : List Token) :
    (outline depth tokens).map Prod.snd = heads tokens := by
  induction tokens generalizing depth with
  | nil => rfl
  | cons token rest ih =>
    rw [outline, List.map_append, ih, heads, heads, List.filterMap_cons]
    cases token.head? <;> rfl

namespace Definition

/-- The line that a definition begins on. -/
def line : Definition → Nat
  | constant declared => declared.line
  | typedef declared => declared.line
  | enum declared => declared.line
  | struct declared => declared.line
  | union declared => declared.line

/-- What a definition begins with. -/
def head (definition : Definition) : Head := ⟨definition.kind, definition.line⟩

/-- The heads of a definition and of the types written in place within it, each with the number of
braces around it. -/
def outline (depth : Nat) (definition : Definition) : List (Nat × Head) :=
  (depth, definition.head) ::
    definition.held.attach.flatMap fun node => node.val.outline (depth + 1)
termination_by sizeOf definition
decreasing_by exact sizeOf_lt_of_mem_held node.property

theorem outline_eq (depth : Nat) (definition : Definition) :
    definition.outline depth =
      (depth, definition.head) :: definition.held.flatMap (outline (depth + 1)) := by
  rw [outline, List.flatMap_subtype (g := outline (depth + 1)) fun _ _ => rfl, List.unattach_attach]

/-- The outline of a definition has one head for each entry that it gives. -/
theorem map_snd_outline (depth : Nat) (definition : Definition) :
    ((definition.outline depth).map Prod.snd).Perm (definition.unfolded.map head) := by
  induction definition using held_induction generalizing depth with
  | step definition ih =>
    rw [outline_eq, unfolded_eq, List.map_cons, List.map_append, List.map_flatMap, List.map_flatMap]
    refine (List.perm_append_singleton _ _).symm.trans (List.Perm.append_right _ ?_)
    exact List.Perm.flatMap_left _ fun node hNode => ih node hNode (depth + 1)

theorem le_of_mem_outline {depth : Nat} {definition : Definition} :
    ∀ place ∈ definition.outline depth, depth ≤ place.1 := by
  induction definition using held_induction generalizing depth with
  | step definition ih =>
    intro place hPlace
    rw [outline_eq] at hPlace
    rcases List.mem_cons.mp hPlace with rfl | hHeld
    · exact Nat.le_refl _
    · obtain ⟨node, hNode, hPlace⟩ := List.mem_flatMap.mp hHeld
      exact Nat.le_of_succ_le (ih node hNode place hPlace)

/-- No type written in place stands where the definition itself does. -/
theorem filter_outline (depth : Nat) (definition : Definition) :
    (definition.outline depth).filter (fun place => place.1 == depth) =
      [(depth, definition.head)] := by
  rw [outline_eq, List.filter_cons_of_pos (by simp)]
  congr 1
  refine List.filter_eq_nil_iff.mpr fun place hPlace => ?_
  obtain ⟨node, -, hPlace⟩ := List.mem_flatMap.mp hPlace
  have hLe := le_of_mem_outline place hPlace
  simp
  omega

end Definition

/-! ## Plain words -/

/-- Whether a token neither begins a definition nor is a brace. -/
def TokenKind.isPlain (kind : TokenKind) : Bool :=
  kind.begins?.isNone && kind != .symbol .openBrace && kind != .symbol .closeBrace

variable {words others : Language TokenKind} {tokens mid rest inner : List Token}

theorem outline_cons_of_isPlain {token : Token} (h : token.kind.isPlain = true) (depth : Nat) :
    outline depth (token :: rest) = outline depth rest := by
  simp only [TokenKind.isPlain, Bool.and_eq_true, Option.isNone_iff_eq_none, bne_iff_ne] at h
  obtain ⟨⟨hBegins, hOpen⟩, hClose⟩ := h
  have hDepth : token.kind.depthBehind depth = depth := by
    unfold TokenKind.depthBehind
    split
    · exact absurd ‹_› hOpen
    · exact absurd ‹_› hClose
    · rfl
  rw [outline, hDepth, Token.head?, hBegins]
  rfl

/-- No word begins a definition or has a brace in it. -/
structure IsPlain (words : Language TokenKind) : Prop where
  isPlain : ∀ word ∈ words, ∀ kind ∈ word, kind.isPlain = true

theorem IsPlain.outline_eq (hWords : IsPlain words) (h : Takes words tokens rest) (depth : Nat) :
    outline depth tokens = outline depth rest := by
  obtain ⟨front, hFront, rfl⟩ := h
  have hPlain : ∀ token ∈ front, token.kind.isPlain = true :=
    fun token hToken => hWords.isPlain _ hFront _ (List.mem_map_of_mem hToken)
  clear hFront
  induction front with
  | nil => rfl
  | cons token front ih =>
    obtain ⟨hToken, hRest⟩ := List.forall_mem_cons.mp hPlain
    rw [List.cons_append, outline_cons_of_isPlain hToken, ih hRest]

theorem isPlain_one : IsPlain 1 where
  isPlain word hWord := by
    rw [(Language.mem_one word).mp hWord]
    exact List.forall_mem_nil _

theorem isPlain_oneOf {kinds : TokenKind → Prop}
    (h : ∀ kind, kinds kind → kind.isPlain = true) : IsPlain (Words.oneOf kinds) where
  isPlain := by
    rintro _ ⟨kind, hKind, rfl⟩
    exact List.forall_mem_singleton.mpr (h kind hKind)

theorem isPlain_symbol {mark : Symbol} (h : (TokenKind.symbol mark).isPlain = true) :
    IsPlain (Words.symbol mark) :=
  isPlain_oneOf fun _ hKind => hKind ▸ h

theorem isPlain_keyword {word : Keyword} (h : (TokenKind.keyword word).isPlain = true) :
    IsPlain (Words.keyword word) :=
  isPlain_oneOf fun _ hKind => hKind ▸ h

theorem isPlain_identifier : IsPlain Words.identifier := by
  refine isPlain_oneOf ?_
  rintro _ ⟨name, rfl⟩
  rfl

theorem isPlain_number : IsPlain Words.number := by
  refine isPlain_oneOf ?_
  rintro _ ⟨value, rfl⟩
  rfl

theorem IsPlain.add (hWords : IsPlain words) (hOthers : IsPlain others) :
    IsPlain (words + others) where
  isPlain word hWord :=
    ((Language.mem_add _ _ word).mp hWord).elim (hWords.isPlain word) (hOthers.isPlain word)

theorem IsPlain.mul (hWords : IsPlain words) (hOthers : IsPlain others) :
    IsPlain (words * others) where
  isPlain word hWord := by
    obtain ⟨first, hFirst, second, hSecond, rfl⟩ := Language.mem_mul.mp hWord
    exact List.forall_mem_append.mpr ⟨hWords.isPlain first hFirst, hOthers.isPlain second hSecond⟩

theorem IsPlain.kstar (hWords : IsPlain words) : IsPlain words∗ where
  isPlain word hWord kind hKind := by
    obtain ⟨parts, rfl, hParts⟩ := Language.mem_kstar.mp hWord
    obtain ⟨part, hPart, hKind⟩ := List.mem_flatten.mp hKind
    exact hWords.isPlain part (hParts part hPart) kind hKind

theorem isPlain_size : IsPlain Words.size := by
  refine isPlain_identifier.add (isPlain_oneOf ?_)
  rintro _ ⟨value, -, rfl⟩
  rfl

theorem isPlain_suffix : IsPlain Words.suffix := by
  unfold Words.suffix
  apply_rules [isPlain_one, isPlain_symbol, isPlain_size, IsPlain.add, IsPlain.mul]

theorem isPlain_declaration : IsPlain Words.declaration := by
  unfold Words.declaration Words.declarator Words.type
  apply_rules [isPlain_one, isPlain_symbol, isPlain_keyword, isPlain_identifier, isPlain_suffix,
    IsPlain.add, IsPlain.mul]

theorem isPlain_inlineTail : IsPlain Words.inlineTail :=
  (isPlain_identifier.mul isPlain_suffix).mul (isPlain_symbol rfl)

theorem isPlain_discriminant : IsPlain Words.discriminant := by
  unfold Words.discriminant
  apply_rules [isPlain_symbol, isPlain_keyword, isPlain_identifier, IsPlain.add, IsPlain.mul]

theorem isPlain_label : IsPlain Words.label := by
  unfold Words.label
  apply_rules [isPlain_symbol, isPlain_keyword, isPlain_identifier, isPlain_number, IsPlain.add,
    IsPlain.mul]

theorem isPlain_constant : IsPlain Words.constant := by
  unfold Words.constant
  apply_rules [isPlain_symbol, isPlain_identifier, isPlain_number, IsPlain.mul]

theorem isPlain_enumValue : IsPlain Words.enumValue := by
  unfold Words.enumValue
  apply_rules [isPlain_one, isPlain_symbol, isPlain_identifier, isPlain_number, IsPlain.add,
    IsPlain.mul]

/-! ## What is read -/

/-- The definitions are those that the tokens in front of the rest begin. -/
def Outlined (found : List Definition) (tokens rest : List Token) : Prop :=
  ∀ depth, outline depth tokens = found.flatMap (Definition.outline depth) ++ outline depth rest

section

variable {found : List Definition} {definition : Definition} {word opening close : Token}

theorem IsPlain.outlined (hWords : IsPlain words) (h : Takes words tokens rest) :
    Outlined [] tokens rest := hWords.outline_eq h

theorem Outlined.append {more : List Definition} (hFirst : Outlined found tokens mid)
    (hSecond : Outlined more mid rest) : Outlined (found ++ more) tokens rest := by
  intro depth
  rw [hFirst, hSecond, List.flatMap_append, List.append_assoc]

/-- In braces the definitions stand one level deeper. -/
theorem Outlined.braces (hOpening : opening.kind = .symbol .openBrace)
    (hClose : close.kind = .symbol .closeBrace) (h : Outlined found inner (close :: rest))
    (depth : Nat) :
    outline depth (opening :: inner) =
      found.flatMap (Definition.outline (depth + 1)) ++ outline depth rest := by
  rw [outline, Token.head?, hOpening]
  show outline (depth + 1) inner = _
  rw [h, outline, Token.head?, hClose]
  rfl

/-- A definition is its keyword and what it holds, one level deeper. -/
theorem Outlined.declared (hWord : word.head? = some definition.head)
    (hHeld : ∀ depth, outline depth tokens =
      definition.held.flatMap (Definition.outline (depth + 1)) ++ outline depth rest) :
    Outlined [definition] (word :: tokens) rest := by
  intro depth
  have hDepth : word.kind.depthBehind depth = depth := by
    cases hKind : word.kind with
    | symbol mark =>
      rw [Token.head?, hKind] at hWord
      cases hWord
    | _ => rfl
  rw [outline, hWord, hDepth, hHeld, List.flatMap_singleton, Definition.outline_eq]
  rfl

end

namespace Grammar

variable {α : Type}

theorem Repeats.outlined {item : List Token → Except Fault (Read α)} {made : α → Option Definition}
    {values : List α} (h : Repeats item tokens values rest)
    (hItem : ∀ {tokens value rest}, item tokens = .ok (value, rest) →
      Outlined (made value).toList tokens rest) :
    Outlined (values.filterMap made) tokens rest := by
  induction h with
  | nil => exact fun _ => rfl
  | @cons tokens mid rest value values hRead _ ih =>
    have hAll := (hItem hRead).append ih
    rw [List.filterMap_cons]
    cases hMade : made value <;> rw [hMade] at hAll <;> exact hAll

/-- What the items of a body begin stands one level deeper. -/
theorem body_outlined {item : List Token → Except Fault (Read α)} {made : α → Option Definition}
    {opening : Token} {values : List α} (hOpening : opening.kind = .symbol .openBrace)
    (h : body item inner = .ok (values, rest))
    (hItem : ∀ {tokens value rest}, item tokens = .ok (value, rest) →
      Outlined (made value).toList tokens rest) (depth : Nat) :
    outline depth (opening :: inner) =
      (values.filterMap made).flatMap (Definition.outline (depth + 1)) ++ outline depth rest := by
  obtain ⟨close, hClose, hItems⟩ := body_read h
  exact (hItems.outlined hItem).braces hOpening hClose depth

theorem discriminant_outline {switch : Discriminant}
    (h : discriminant tokens = .ok (switch, rest)) (depth : Nat) :
    outline depth tokens = outline depth rest := by
  have hReads : Reads Words.discriminant 1 tokens (discriminant tokens) := discriminant_reads
  exact isPlain_discriminant.outline_eq (hReads.sound h) depth

theorem inlineTail_outline {type : String} {shape : Shape}
    (h : inlineTail type tokens = .ok (shape, rest)) (depth : Nat) :
    outline depth tokens = outline depth rest := by
  have hReads : Reads Words.inlineTail 1 tokens (inlineTail type tokens) := inlineTail_reads
  exact isPlain_inlineTail.outline_eq (hReads.sound h) depth

theorem labels_outline {found : List CaseLabel} (h : labels tokens = .ok (found, rest))
    (depth : Nat) : outline depth tokens = outline depth rest := by
  have hReads : Reads Words.label∗ 0 tokens (labels tokens) := labels_reads begins_zero
  exact isPlain_label.kstar.outline_eq (hReads.sound h) depth

theorem declarator_outlined {value : Declarator} (h : declarator tokens = .ok (value, rest)) :
    Outlined [] tokens rest := by
  have hReads : Reads Words.declaration 1 tokens (declarator tokens) := declarator_reads
  exact isPlain_declaration.outlined (hReads.sound h)

/-- The type written in place for the content of an arm is what its tokens begin. -/
theorem arm_outlined {field : List Token → Except Fault (Read Field)} {value : Arm}
    (hField : ∀ {tokens value rest}, field tokens = .ok (value, rest) →
      Outlined value.type.definition?.toList tokens rest)
    (h : arm field tokens = .ok (value, rest)) :
    Outlined (value.content.bind (·.type.definition?)).toList tokens rest := by
  intro depth
  cases arm_read h with
  | void hLabels hSome hWord hSemicolon =>
    rw [labels_outline hLabels, outline_cons_of_isPlain (by rw [hWord]; rfl),
      outline_cons_of_isPlain (by rw [hSemicolon]; rfl)]
    rfl
  | field hLabels hSome hContent =>
    rw [labels_outline hLabels]
    exact hField hContent depth

/-- The type written in place for a field is what its tokens begin. -/
theorem field_outlined {depth : Nat} {parent : String} {value : Field}
    (h : field depth parent tokens = .ok (value, rest)) :
    Outlined value.type.definition?.toList tokens rest := by
  induction depth generalizing parent tokens rest value with
  | zero => cases h
  | succ depth ih =>
    cases field_read h with
    | declared hDeclarator => exact declarator_outlined hDeclarator
    | struct hWord hOpening hName hFields hTail =>
      refine Outlined.declared (by rw [Token.head?, hWord]; rfl) fun level => ?_
      rw [body_outlined hOpening hFields fun hItem => ih (structItem_read hItem),
        inlineTail_outline hTail]
      rfl
    | union hWord hSwitch hOpening hName hArms hTail =>
      refine Outlined.declared (by rw [Token.head?, hWord]; rfl) fun level => ?_
      rw [discriminant_outline hSwitch,
        body_outlined hOpening hArms fun hItem => arm_outlined ih hItem, inlineTail_outline hTail]
      rfl

/-! ## Definitions and files -/

theorem enumValue_outlined {value : EnumValue} (h : enumValue tokens = .ok (value, rest)) :
    Outlined [] tokens rest := by
  have hReads : Reads Words.enumValue 0 tokens (enumValue tokens) := enumValue_reads begins_zero
  exact isPlain_enumValue.outlined (hReads.sound h)

theorem isPlain_of_identifier {token : Token} {name : String}
    (h : token.kind = .identifier name) : token.kind.isPlain = true := by
  rw [h]
  rfl

theorem isPlain_of_semicolon {token : Token} (h : token.kind = .symbol .semicolon) :
    token.kind.isPlain = true := by
  rw [h]
  rfl

/-- A definition is what its tokens begin. -/
theorem definition_outlined {value : Definition} (h : definition tokens = .ok (value, rest)) :
    Outlined [value] tokens rest := by
  cases definition_read h with
  | @constant word inner _ declared hWord hRead =>
    have hReads : Reads Words.constant 1 inner (constant word.position.line inner) :=
      constant_reads
    have hLine := constant_line hRead
    refine Outlined.declared (by rw [Token.head?, hWord, ← hLine]; rfl) fun level => ?_
    rw [isPlain_constant.outline_eq (hReads.sound hRead)]
    rfl
  | @typedef word inner _ declared hWord hRead =>
    have hReads : Reads Words.declaration 1 inner (typedef word.position.line inner) :=
      typedef_reads
    have hLine := typedef_line hRead
    refine Outlined.declared (by rw [Token.head?, hWord, ← hLine]; rfl) fun level => ?_
    rw [isPlain_declaration.outline_eq (hReads.sound hRead)]
    rfl
  | enum hWord hRead =>
    obtain ⟨hLine, label, opening, semicolon, inner, rfl, hLabel, hOpening, hValues, hSemicolon⟩ :=
      enum_read hRead
    let made : EnumValue → Option Definition := fun _ => none
    have hItem {tokens rest : List Token} {value : EnumValue}
        (h : enumValue tokens = .ok (value, rest)) : Outlined (made value).toList tokens rest :=
      enumValue_outlined h
    refine Outlined.declared (by rw [Token.head?, hWord, ← hLine]; rfl) fun level => ?_
    rw [outline_cons_of_isPlain (isPlain_of_identifier hLabel),
      body_outlined hOpening hValues hItem,
      outline_cons_of_isPlain (isPlain_of_semicolon hSemicolon), List.filterMap_none]
    rfl
  | struct hWord hRead =>
    obtain ⟨hLine, label, opening, semicolon, inner, rfl, hLabel, hOpening, hFields, hSemicolon⟩ :=
      struct_read hRead
    refine Outlined.declared (by rw [Token.head?, hWord, ← hLine]; rfl) fun level => ?_
    rw [outline_cons_of_isPlain (isPlain_of_identifier hLabel),
      body_outlined hOpening hFields fun hItem => field_outlined (structItem_read hItem),
      outline_cons_of_isPlain (isPlain_of_semicolon hSemicolon)]
    rfl
  | union hWord hRead =>
    obtain ⟨hLine, label, opening, semicolon, switched, inner, rfl, hLabel, hSwitch, hOpening,
      hArms, hSemicolon⟩ := union_read hRead
    refine Outlined.declared (by rw [Token.head?, hWord, ← hLine]; rfl) fun level => ?_
    rw [outline_cons_of_isPlain (isPlain_of_identifier hLabel), discriminant_outline hSwitch,
      body_outlined hOpening hArms fun hItem => arm_outlined field_outlined hItem,
      outline_cons_of_isPlain (isPlain_of_semicolon hSemicolon)]
    rfl

/-- The definitions of a file are what its tokens begin. -/
theorem Itemized.outlined {inNameSpace : Bool} {found : List Definition}
    (h : Itemized inNameSpace tokens found rest) : Outlined found tokens rest := by
  induction h with
  | finish => exact fun _ => rfl
  | semicolon hToken _ ih =>
    intro depth
    rw [outline_cons_of_isPlain (isPlain_of_semicolon hToken), ih depth]
  | definition hFirst _ ih => exact (definition_outlined hFirst).append ih

/-- How deep the definitions of a file are written: in a namespace they are in its braces. -/
def level (nameSpace : Option String) : Nat := if nameSpace.isSome then 1 else 0

theorem FileRead.outline_eq {nameSpace : Option String} {found : List Definition}
    (h : FileRead tokens nameSpace found rest) :
    outline 0 tokens = found.flatMap (Definition.outline (level nameSpace)) ++
      outline (level nameSpace) rest := by
  cases h with
  | plain hPlain hItems => exact hItems.outlined 0
  | @nameSpace word label opening inner _ name _ hWord hLabel hOpening hItems =>
    rw [outline_cons_of_isPlain (by rw [hWord]; rfl),
      outline_cons_of_isPlain (isPlain_of_identifier hLabel), outline, Token.head?, hOpening]
    exact hItems.outlined 1

/-- A file is its definitions: the tokens in front of the end of the file begin these and no
others. -/
theorem FileRead.outlined {nameSpace : Option String} {found : List Definition}
    (h : FileRead tokens nameSpace found rest) :
    ∃ front, tokens = front ++ rest ∧
      outline 0 front = found.flatMap (Definition.outline (level nameSpace)) := by
  obtain ⟨⟨front, rfl⟩, -⟩ := h.exists_front
  obtain ⟨behind, hAppend⟩ := exists_outline_append 0 front rest
  have hRest : (outline behind rest).length = (outline (level nameSpace) rest).length := by
    have hHeads (depth : Nat) : (outline depth rest).length = (heads rest).length := by
      rw [← map_snd_outline depth, List.length_map]
    rw [hHeads, hHeads]
  exact ⟨front, rfl, (List.append_inj' (hAppend.symm.trans h.outline_eq) hRest).1⟩

end Grammar

end XdrBindings.Idl
