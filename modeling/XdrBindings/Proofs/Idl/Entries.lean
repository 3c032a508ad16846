import XdrBindings.Proofs.Idl.Heads

/-!
# The entries of a file

Each keyword that begins a definition gives one entry: the definitions at the top level are entries
in their order, and what is written in place is an entry in front of the definition around it, named
after the type around it and after its field.  This goes up to the brace that closes the namespace.
Keywords behind it give no entries.

## Main results

* `definition_namesHeld` — what is written in place is named after its field.
* `parse_promotes` — the entries of a file are the definitions that its source begins.
* `parseTokens_accounts` — all keywords have entries just where none stands behind the namespace.
-/

namespace XdrBindings.Idl

/-! ## Names -/

/-- Each type that is written in place for a field of the definition is named after both. -/
def Definition.NamesHeld (definition : Definition) : Prop :=
  ∀ field ∈ definition.fields, ∀ node, field.type.definition? = some node →
    node.name = inlineName definition.name field.name

/-- The type written in place for a field of the type named `parent` is named after both, and so are
those within it. -/
def Field.IsNamed (parent : String) (field : Field) : Prop :=
  ∀ node, field.type.definition? = some node →
    node.name = inlineName parent field.name ∧ ∀ entry ∈ node.unfolded, entry.NamesHeld

theorem namesHeld_of_fields {definition : Definition}
    (h : ∀ field ∈ definition.fields, field.IsNamed definition.name) :
    ∀ entry ∈ definition.unfolded, entry.NamesHeld := by
  intro entry hEntry
  rw [Definition.unfolded_eq] at hEntry
  rcases List.mem_append.mp hEntry with hHeld | hSelf
  · obtain ⟨node, hNode, hEntry⟩ := List.mem_flatMap.mp hHeld
    obtain ⟨field, hField, hNode⟩ := Definition.mem_held_iff.mp hNode
    exact (h field hField node hNode).2 entry hEntry
  · obtain rfl := List.mem_singleton.mp hSelf
    exact fun field hField node hNode => (h field hField node hNode).1

namespace Grammar

variable {tokens rest : List Token}

theorem arm_isNamed {parent : String} {field : List Token → Except Fault (Read Field)} {value : Arm}
    (hField : ∀ {tokens value rest}, field tokens = .ok (value, rest) → value.IsNamed parent)
    (h : arm field tokens = .ok (value, rest)) :
    ∀ content ∈ value.content, content.IsNamed parent := by
  cases arm_read h with
  | void => exact nofun
  | field hLabels hSome hContent =>
    rintro _ ⟨⟩
    exact hField hContent

theorem field_isNamed {depth : Nat} {parent : String} {value : Field}
    (h : field depth parent tokens = .ok (value, rest)) : value.IsNamed parent := by
  induction depth generalizing parent tokens rest value with
  | zero => cases h
  | succ depth ih =>
    cases field_read h with
    | declared => exact nofun
    | struct hWord hOpening hName hFields hTail =>
      obtain ⟨close, -, hItems⟩ := body_read hFields
      rintro _ ⟨⟩
      exact ⟨rfl, namesHeld_of_fields (hItems.forall_mem fun hItem => ih (structItem_read hItem))⟩
    | union hWord hSwitch hOpening hName hArms hTail =>
      obtain ⟨close, -, hItems⟩ := body_read hArms
      rintro _ ⟨⟩
      refine ⟨rfl, namesHeld_of_fields fun content hContent => ?_⟩
      obtain ⟨arm, hArm, hContent⟩ := List.mem_filterMap.mp hContent
      exact hItems.forall_mem (fun hItem => arm_isNamed ih hItem) arm hArm content hContent

/-- What is written in place within a definition is named after its fields. -/
theorem definition_namesHeld {value : Definition} (h : definition tokens = .ok (value, rest)) :
    ∀ entry ∈ value.unfolded, entry.NamesHeld := by
  refine namesHeld_of_fields ?_
  cases definition_read h with
  | constant | typedef | enum => exact List.forall_mem_nil _
  | struct hWord hRead =>
    obtain ⟨-, _, _, _, _, -, -, -, hFields, -⟩ := struct_read hRead
    obtain ⟨close, -, hItems⟩ := body_read hFields
    exact hItems.forall_mem fun hItem => field_isNamed (structItem_read hItem)
  | union hWord hRead =>
    obtain ⟨-, _, _, _, _, _, -, -, -, -, hArms, -⟩ := union_read hRead
    obtain ⟨close, -, hItems⟩ := body_read hArms
    intro content hContent
    obtain ⟨arm, hArm, hContent⟩ := List.mem_filterMap.mp hContent
    exact hItems.forall_mem (fun hItem => arm_isNamed field_isNamed hItem) arm hArm content hContent

theorem Itemized.namesHeld {inNameSpace : Bool} {found : List Definition}
    (h : Itemized inNameSpace tokens found rest) :
    ∀ entry ∈ found.flatMap Definition.unfolded, entry.NamesHeld := by
  induction h with
  | finish => exact List.forall_mem_nil _
  | semicolon _ _ ih => exact ih
  | definition hFirst _ ih =>
    rw [List.flatMap_cons]
    exact List.forall_mem_append.mpr ⟨definition_namesHeld hFirst, ih⟩

theorem FileRead.namesHeld {nameSpace : Option String} {found : List Definition}
    (h : FileRead tokens nameSpace found rest) :
    ∀ entry ∈ found.flatMap Definition.unfolded, entry.NamesHeld := by
  cases h with
  | plain _ hItems | nameSpace _ _ _ hItems => exact hItems.namesHeld

end Grammar

/-- The keywords that begin definitions have one entry each. -/
theorem perm_heads_of_outline {tokens : List Token} {tops : List Definition} {depth : Nat}
    (h : outline 0 tokens = tops.flatMap (Definition.outline depth)) :
    (heads tokens).Perm ((tops.flatMap Definition.unfolded).map Definition.head) := by
  rw [← map_snd_outline 0, h, List.map_flatMap, List.map_flatMap]
  exact List.Perm.flatMap_left _ fun definition _ => definition.map_snd_outline _

/-- The keywords that stand in no braces but those of the namespace begin the definitions at the top
level. -/
theorem filter_outline_of_outline {tokens : List Token} {tops : List Definition} {depth : Nat}
    (h : outline 0 tokens = tops.flatMap (Definition.outline depth)) :
    (outline 0 tokens).filter (fun place => place.1 == depth) =
      tops.map fun top => (depth, top.head) := by
  rw [h, List.filter_flatMap, List.map_eq_flatMap]
  exact congrArg tops.flatMap (funext fun top => top.filter_outline depth)

/-! ## Promotion -/

/-- The entries of a file are what its tokens begin: the definitions at the top level and, in front
of each of them, what is written in place within it. -/
structure Promotes (tokens : List Token) (tops : List Definition) (file : File) : Prop where
  /-- The definitions at the top level stand in the order of the keywords that begin them. -/
  map_head_tops : tops.map Definition.head =
    ((outline 0 tokens).filter fun place => place.1 == Grammar.level file.nameSpace).map Prod.snd
  /-- Besides them there are only entries for what is written in place within them. -/
  definitions_eq : file.definitions = tops.flatMap fun top => top.inlined ++ [top]
  encloses : ∀ top ∈ tops, ∀ entry ∈ top.inlined,
    ∃ enclosing, top.Encloses enclosing ∧ entry ∈ enclosing.held
  /-- What is written in place for a field, anywhere within an entry, is an entry in front of this
  one, and it is named after the type directly around it. -/
  promoted : ∀ before entry after, file.definitions = before ++ entry :: after →
    ∀ enclosing, entry.Encloses enclosing → ∀ field ∈ enclosing.fields, ∀ node,
      field.type.definition? = some node →
        node ∈ before ∧ node.name = inlineName enclosing.name field.name
  /-- There are as many entries as keywords that begin a definition at the top level or in place. -/
  length_definitions : file.definitions.length = tops.length +
    ((outline 0 tokens).filter fun place => place.1 != Grammar.level file.nameSpace).length

/-- The source of a file is what its grammar reads, up to the brace that closes its namespace, and
the entries are what the keywords in front of this brace begin. -/
theorem parse_promotes {ink : Ink} {filename : String} {source : Text} {file : File}
    (h : parse ink filename source = .ok file) :
    ∃ front behind tops, tokenize source = .ok (front ++ behind ++ [endOf source]) ∧
      Grammar.FileRead (front ++ behind) file.nameSpace tops behind ∧ Promotes front tops file := by
  obtain ⟨tokens, hTokens, -, tops, behind, hRead, hDefinitions⟩ := exists_of_parse h
  obtain ⟨front, rfl, hOutline⟩ := hRead.outlined
  have hTops := filter_outline_of_outline hOutline
  have hHeldBefore : HeldBefore file.definitions :=
    hDefinitions ▸ HeldBefore.flatMap fun top _ => heldBefore_unfolded top
  refine ⟨front, behind, tops, hTokens, hRead, ?_, hDefinitions, ?_, ?_, ?_⟩
  · rw [hTops, List.map_map]
    rfl
  · exact fun top _ entry hEntry => mem_inlined_iff.mp hEntry
  · intro before entry after hSplit enclosing hEnclosing field hField node hNode
    have hHeld : node ∈ enclosing.held := Definition.mem_held_iff.mpr ⟨field, hField, hNode⟩
    have hMem : enclosing ∈ file.definitions := by
      rw [hSplit]
      cases hEnclosing with
      | self => exact List.mem_append_right _ List.mem_cons_self
      | held hInner hEnclosing =>
        exact List.mem_append_left _
          (hHeldBefore.held_subset_of_encloses hSplit hInner hEnclosing)
    have hBefore := hHeldBefore.held_subset_of_encloses hSplit hEnclosing hHeld
    exact ⟨hBefore, hRead.namesHeld enclosing (hDefinitions ▸ hMem) field hField node hNode⟩
  · have hLength := (perm_heads_of_outline hOutline).length_eq
    have hParts := (outline 0 front).length_eq_length_filter_add
      fun place => place.1 == Grammar.level file.nameSpace
    rw [← map_snd_outline 0, List.length_map, List.length_map, ← hDefinitions] at hLength
    rw [hTops, List.length_map, hLength] at hParts
    exact hParts

/-- A source with a union in place within a structure, and a structure in place within this. -/
def nestedSource : Text :=
  ("namespace n\x7bstruct A\x7bunion switch(int v)\x7bcase 0:struct\x7bint x;\x7dp;\x7d" ++
    "q;\x7d;const B=1;\x7d").toList

theorem parse_promotes_nested : ∃ file, parse .plain "nested.x" nestedSource = .ok file ∧
    file.definitions.map Definition.name = ["AQP", "AQ", "A", "B"] ∧
    ∃ front behind tops, tokenize nestedSource = .ok (front ++ behind ++ [endOf nestedSource]) ∧
      Grammar.FileRead (front ++ behind) file.nameSpace tops behind ∧ Promotes front tops file := by
  have hNames : (parse .plain "nested.x" nestedSource).toOption.map
      (fun file => file.definitions.map Definition.name) = some ["AQP", "AQ", "A", "B"] := by
    decide +kernel
  obtain ⟨file, hFile, hNames⟩ := Option.map_eq_some_iff.mp hNames
  have hParse := eq_ok_of_mem_toOption hFile
  exact ⟨file, hParse, hNames, parse_promotes hParse⟩

/-! ## Token lists -/

/-- Every keyword in front of the end mark that begins a definition has an entry of its own. -/
def AccountsFor (tokens : List Token) (file : File) : Prop :=
  (heads (beforeEnd tokens)).Perm (file.definitions.map Definition.head)

theorem heads_append (front behind : List Token) :
    heads (front ++ behind) = heads front ++ heads behind :=
  List.filterMap_append

/-- The keywords in front of the brace that closes the namespace have an entry each, and so have all
keywords if none stands behind this brace.  Without a namespace nothing is left. -/
theorem parseTokens_accounts {ink : Ink} {filename : String} {source : Option Text}
    {tokens : List Token} {file : File} (h : parseTokens ink filename source tokens = .ok file) :
    ∃ front behind tops, beforeEnd tokens = front ++ behind ∧
      Grammar.FileRead (front ++ behind) file.nameSpace tops behind ∧
      (behind = [] ∨ file.nameSpace.isSome = true ∧ Grammar.isAhead .closeBrace behind = true) ∧
      (heads front).Perm (file.definitions.map Definition.head) ∧
      (AccountsFor tokens file ↔ heads behind = []) := by
  obtain ⟨nameSpace, tops, behind, hRead, rfl⟩ := parseTokens_eq_ok_iff.mp h
  obtain ⟨front, hTokens, hOutline⟩ := hRead.outlined
  have hHeads := perm_heads_of_outline hOutline
  obtain ⟨-, hBehind⟩ := hRead.exists_front
  refine ⟨front, behind, tops, hTokens, hTokens ▸ hRead, hBehind, hHeads, ?_⟩
  rw [AccountsFor, hTokens, heads_append]
  constructor
  · intro hAll
    have hLength := (hAll.trans hHeads.symm).length_eq
    rw [List.length_append] at hLength
    exact List.eq_nil_of_length_eq_zero (by omega)
  · intro hNone
    rwa [hNone, List.append_nil]

/-- Behind the brace of the namespace stands a keyword that begins nothing. -/
theorem parseTokens_accounts_nested : ∃ file,
    parseTokens .plain "nested.x" none (nestedTokens ++ [finishToken]) = .ok file ∧
      ∃ front behind tops, beforeEnd (nestedTokens ++ [finishToken]) = front ++ behind ∧
        Grammar.FileRead (front ++ behind) file.nameSpace tops behind ∧
        (behind = [] ∨ file.nameSpace.isSome = true ∧ Grammar.isAhead .closeBrace behind = true) ∧
        (heads front).Perm (file.definitions.map Definition.head) ∧
        (AccountsFor (nestedTokens ++ [finishToken]) file ↔ heads behind = []) := by
  have hOk :
      (parseTokens .plain "nested.x" none (nestedTokens ++ [finishToken])).toOption.isSome := by
    decide +kernel
  obtain ⟨file, hFile⟩ := Option.isSome_iff_exists.mp hOk
  have hParse := eq_ok_of_mem_toOption hFile
  exact ⟨file, hParse, parseTokens_accounts hParse⟩

/-- The tokens of a source with a constant behind its namespace. -/
def trailingTokens : List Token :=
  (tokenize "namespace n \x7b\nconst A = 1;\n\x7d\nconst B = 2;\n".toList).toOption.getD []

/-- The constant behind the namespace has no entry. -/
theorem trailing_constant_ignored :
    ¬∀ file, parseTokens .plain "trailing.x" none trailingTokens = .ok file →
      AccountsFor trailingTokens file := by
  intro hAll
  have hCounts : (parseTokens .plain "trailing.x" none trailingTokens).toOption.map
      (fun file => ((heads (beforeEnd trailingTokens)).length, file.definitions.length)) =
        some (2, 1) := by decide +kernel
  obtain ⟨file, hFile, hCounts⟩ := Option.map_eq_some_iff.mp hCounts
  have hLength := (hAll file (eq_ok_of_mem_toOption hFile)).length_eq
  obtain ⟨hHeads, hEntries⟩ := Prod.mk.inj hCounts
  rw [List.length_map, hHeads, hEntries] at hLength
  cases hLength

end XdrBindings.Idl
