import XdrBindings.Proofs.Idl.Resolution

/-!
# Filling in references

A table fills in the open references of a file and leaves all else as it is.  So files may be filled
in more than once: a later table is asked for what the earlier ones do not say.  A reference that
has a number is no link any more, and its name is no literal, so the table of files that have been
filled in says less than the one that they were filled in from.

## Main results

* `File.fill_fill` — two tables one after the other fill in what the one behind the other does.
* `File.literals_fill`, `File.links_fill` — what filled files contribute to a table.
* `resolveEnums_resolveEnums` — resolving references again changes nothing.
* `mem_symbols_openReferences_iff` — which symbols are reported.
-/

namespace XdrBindings.Idl

open Relation

variable {files others : List File} {file : File} {table other : SymbolTable} {symbol : String}

/-! ## Tables one after the other -/

theorem EnumSource.fill_fill (table other : SymbolTable) (source : EnumSource) :
    (source.fill table).fill other = source.fill (table ++ other) := by
  rcases source with number | ⟨symbol, _ | number⟩
  · rfl
  · show fill other (.reference symbol (table.lookup symbol)) =
      .reference symbol ((table ++ other).lookup symbol)
    rw [SymbolTable.lookup_append]
    cases table.lookup symbol <;> rfl
  · rfl

theorem EnumSource.fill_nil (source : EnumSource) : source.fill [] = source := by
  rcases source with number | ⟨symbol, _ | number⟩ <;> rfl

theorem EnumSource.fill_congr {source : EnumSource}
    (h : ∀ symbol, source = .reference symbol none → table.lookup symbol = other.lookup symbol) :
    source.fill table = source.fill other := by
  rcases source with number | ⟨symbol, _ | number⟩
  · rfl
  · exact congrArg (EnumSource.reference symbol) (h symbol rfl)
  · rfl

theorem Definition.fill_fill (table other : SymbolTable) (definition : Definition) :
    (definition.fill table).fill other = definition.fill (table ++ other) := by
  cases definition with
  | enum declared => simp [fill, Enum.fill, EnumSource.fill_fill]
  | _ => rfl

theorem Definition.fill_nil (definition : Definition) : definition.fill [] = definition := by
  cases definition with
  | enum declared => simp [fill, Enum.fill, EnumSource.fill_nil]
  | _ => rfl

/-- Filling in a second time fills in what the first table does not say. -/
theorem File.fill_fill (table other : SymbolTable) (file : File) :
    (file.fill table).fill other = file.fill (table ++ other) := by
  simp [fill, Definition.fill_fill]

theorem File.fill_nil (file : File) : file.fill [] = file := by
  obtain ⟨filename, nameSpace, definitions⟩ := file
  have hDefinitions : definitions.map (Definition.fill []) = definitions := by
    rw [show Definition.fill [] = id from funext Definition.fill_nil, List.map_id]
  exact congrArg (File.mk filename nameSpace) hDefinitions

/-- Tables that agree on the symbols of the open references fill in the same. -/
theorem File.fill_congr (h : ∀ link ∈ file.links, table.lookup link.2 = other.lookup link.2) :
    file.fill table = file.fill other := by
  refine congrArg (File.mk file.filename file.nameSpace) (List.map_congr_left ?_)
  intro definition hDefinition
  cases definition with
  | enum declared =>
    have hEnum : declared ∈ file.enums := List.mem_filterMap.mpr ⟨_, hDefinition, rfl⟩
    refine congrArg (fun values => Definition.enum ⟨declared.name, values, declared.line⟩)
      (List.map_congr_left fun value hValue => ?_)
    refine congrArg (fun source => EnumValue.mk value.name source value.line)
      (EnumSource.fill_congr fun symbol hSource => h (value.name, symbol) ?_)
    refine List.mem_flatMap.mpr ⟨declared, hEnum, List.mem_filterMap.mpr ⟨value, hValue, ?_⟩⟩
    rw [EnumValue.link?, hSource]
  | _ => rfl

/-! ## What filled files contribute -/

theorem File.constants_fill (table : SymbolTable) (file : File) :
    (file.fill table).constants = file.constants := by
  unfold constants fill
  rw [List.filterMap_map]
  congr 1
  funext definition
  cases definition <;> rfl

theorem File.enums_fill (table : SymbolTable) (file : File) :
    (file.fill table).enums = file.enums.map (Enum.fill table) := by
  unfold enums fill
  rw [List.filterMap_map, List.map_filterMap]
  congr 1
  funext definition
  cases definition <;> rfl

theorem File.entries_fill (table : SymbolTable) (file : File) :
    (file.fill table).entries = file.entries.map fun entry => (entry.1, entry.2.fill table) := by
  simp [entries, constants_fill, enums_fill, List.map_append, List.map_flatMap, List.flatMap_map,
    Enum.fill, EnumSource.fill, Function.comp_def]

/-- The numbers that stand written are the same. -/
theorem File.literals_fill (table : SymbolTable) (file : File) :
    (file.fill table).literals = file.literals := by
  rw [literals_eq, literals_eq, entries_fill, List.filterMap_map]
  congr 1
  funext entry
  rcases entry with ⟨name, number | ⟨symbol, _ | number⟩⟩ <;> rfl

/-- The references whose symbols the table does not know stay open. -/
theorem File.links_fill (table : SymbolTable) (file : File) :
    (file.fill table).links = file.links.filter fun link => (table.lookup link.2).isNone := by
  rw [links_eq, links_eq, entries_fill, List.filterMap_map, List.filter_filterMap]
  congr 1
  funext entry
  rcases entry with ⟨name, number | ⟨symbol, _ | number⟩⟩
  · rfl
  · show linkOf? (name, .reference symbol (table.lookup symbol)) = _
    cases hSymbol : table.lookup symbol <;> simp [linkOf?, Option.filter_some, hSymbol]
  · rfl

theorem File.mem_links_fill {link : String × String} :
    link ∈ (file.fill table).links ↔ link ∈ file.links ∧ table.lookup link.2 = none := by
  rw [links_fill, List.mem_filter, Option.isNone_iff_eq_none]

theorem mem_links_resolveEnums {link : String × String} :
    link ∈ (resolveEnums files).flatMap File.links ↔
      link ∈ files.flatMap File.links ∧ (symbolTable files).lookup link.2 = none := by
  simp only [resolveEnums, List.flatMap_map, List.mem_flatMap, File.mem_links_fill]
  constructor
  · rintro ⟨file, hFile, hLink, hNone⟩
    exact ⟨⟨file, hFile, hLink⟩, hNone⟩
  · rintro ⟨⟨file, hFile, hLink⟩, hNone⟩
    exact ⟨file, hFile, hLink, hNone⟩

/-! ## Tables of filled files -/

/-- With the same numbers and fewer references a table knows no more names. -/
theorem isSome_lookup_symbolTable_of_subset {name : String}
    (hLiterals : others.flatMap File.literals = files.flatMap File.literals)
    (hLinks : others.flatMap File.links ⊆ files.flatMap File.links)
    (h : ((symbolTable others).lookup name).isSome = true) :
    ((symbolTable files).lookup name).isSome = true := by
  unfold symbolTable at h ⊢
  rw [SymbolTable.isSome_lookup_closure_iff] at h ⊢
  obtain ⟨number, last, hChain, hLast⟩ := h
  exact ⟨number, last, ReflTransGen.mono (fun _ _ hLink => hLinks hLink) _ _ hChain,
    hLiterals ▸ hLast⟩

/-- Resolving references again changes nothing. -/
theorem resolveEnums_resolveEnums (files : List File) :
    resolveEnums (resolveEnums files) = resolveEnums files := by
  have hAgain (file : File) :
      (file.fill (symbolTable files)).fill (symbolTable (resolveEnums files)) =
        file.fill (symbolTable files) := by
    rw [File.fill_fill]
    refine File.fill_congr fun link _ => ?_
    rw [SymbolTable.lookup_append]
    cases hFirst : (symbolTable files).lookup link.2 with
    | some number => rfl
    | none =>
      rw [Option.none_or, ← Option.not_isSome_iff_eq_none]
      intro hSecond
      have hLiterals : (resolveEnums files).flatMap File.literals =
          files.flatMap File.literals := by
        simp only [resolveEnums, List.flatMap_map, File.literals_fill]
      have hKnown := isSome_lookup_symbolTable_of_subset hLiterals
        (fun _ hLink => (mem_links_resolveEnums.mp hLink).1) hSecond
      rw [hFirst] at hKnown
      cases hKnown
  generalize hTable : symbolTable (resolveEnums files) = table at hAgain
  rw [resolveEnums, hTable, resolveEnums, List.map_map]
  exact List.map_congr_left fun file _ => hAgain file

/-! ## What is reported -/

theorem map_symbol_openReferences (files : List File) :
    (openReferences files).map Unresolved.symbol = (files.flatMap File.links).map Prod.snd := by
  unfold openReferences File.unresolved File.links
  simp only [List.map_flatMap, List.map_filterMap]
  congr! 8 with file enum value
  unfold EnumValue.unresolved?
  cases value.link? <;> rfl

/-- The symbols that are reported are those of open references that the table does not know. -/
theorem mem_symbols_openReferences_iff :
    symbol ∈ (openReferences (resolveEnums files)).map Unresolved.symbol ↔
      (∃ name, (name, symbol) ∈ files.flatMap File.links) ∧
        (symbolTable files).lookup symbol = none := by
  rw [map_symbol_openReferences, List.mem_map]
  constructor
  · rintro ⟨⟨name, _⟩, hLink, rfl⟩
    obtain ⟨hLink, hNone⟩ := mem_links_resolveEnums.mp hLink
    exact ⟨⟨name, hLink⟩, hNone⟩
  · rintro ⟨⟨name, hLink⟩, hNone⟩
    exact ⟨_, mem_links_resolveEnums.mpr ⟨hLink, hNone⟩, rfl⟩

end XdrBindings.Idl
