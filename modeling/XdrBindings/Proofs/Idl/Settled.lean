import XdrBindings.Proofs.Idl.Filling

/-!
# Resolved references stay as they are

Files may come with references that have numbers already, whatever these are.  Resolving keeps every
number that is known, and a second round finds nothing to do.  This is not plain from the table: a
reference that has got its number is no entry of the next table, which so knows less than the one
before.  What carries over is that the first table is closed: no open reference has a symbol that a
chain of open references leads to a number.

## Main results

* `File.keeps_fill` — filling in a table keeps the numbers that are known.
* `openReferences_resolveEnums` — what is reported, from any state.
* `resolveEnums_settles` — the files and the report are settled after one round.
-/

namespace XdrBindings.Idl

/-! ## What is kept -/

/-- Whether a source stands in the place of another one: it refers to the same symbol or to none as
well, and a number that was known is the same. -/
structure EnumSource.Keeps (old new : EnumSource) : Prop where
  symbol : new.symbol? = old.symbol?
  value : ∀ number, old.value? = some number → new.value? = some number

/-- Whether an enumeration value stands in the place of another one. -/
structure EnumValue.Keeps (old new : EnumValue) : Prop where
  name : new.name = old.name
  source : old.source.Keeps new.source
  line : new.line = old.line

/-- Whether a definition stands in the place of another one: only the values of enumerations may
differ. -/
inductive Definition.Keeps : Definition → Definition → Prop
  | enum {name : String} {line : Nat} {old new : List EnumValue}
      (hValues : List.Forall₂ EnumValue.Keeps old new) :
      Keeps (.enum ⟨name, old, line⟩) (.enum ⟨name, new, line⟩)
  | other {definition : Definition} (hOther : definition.enum? = none) :
      Keeps definition definition

/-- Whether a file stands in the place of another one. -/
structure File.Keeps (old new : File) : Prop where
  filename : new.filename = old.filename
  nameSpace : new.nameSpace = old.nameSpace
  definitions : List.Forall₂ Definition.Keeps old.definitions new.definitions

theorem EnumSource.keeps_fill (table : SymbolTable) (source : EnumSource) :
    source.Keeps (source.fill table) := by
  rcases source with number | ⟨symbol, _ | number⟩
  · exact ⟨rfl, fun _ h => h⟩
  · exact ⟨rfl, nofun⟩
  · exact ⟨rfl, fun _ h => h⟩

/-- Nothing but open references changes, whatever the table says. -/
theorem File.keeps_fill (table : SymbolTable) (file : File) : file.Keeps (file.fill table) where
  filename := rfl
  nameSpace := rfl
  definitions := by
    unfold File.fill
    rw [List.forall₂_map_right_iff, List.forall₂_same]
    intro definition _
    cases definition with
    | enum declared =>
      refine .enum ?_
      rw [List.forall₂_map_right_iff, List.forall₂_same]
      exact fun value _ => ⟨rfl, value.source.keeps_fill table, rfl⟩
    | constant | typedef | struct | union => exact .other rfl

/-! ## What is reported -/

theorem EnumValue.unresolved?_fill (table : SymbolTable) (file enum : String)
    (value : EnumValue) :
    unresolved? file enum { value with source := value.source.fill table } =
      (value.unresolved? file enum).filter fun reference =>
        (table.lookup reference.symbol).isNone := by
  obtain ⟨name, source, line⟩ := value
  rcases source with number | ⟨symbol, _ | number⟩
  · rfl
  · simp only [EnumSource.fill, unresolved?, link?, Option.map_some, Option.filter_some]
    cases table.lookup symbol <;> rfl
  · rfl

/-- The references that stay open are those whose symbols the table does not know. -/
theorem File.unresolved_fill (table : SymbolTable) (file : File) :
    (file.fill table).unresolved =
      file.unresolved.filter fun reference => (table.lookup reference.symbol).isNone := by
  unfold unresolved
  rw [enums_fill, List.flatMap_map, List.filter_flatMap]
  congr 1
  funext enum
  show (enum.values.map _).filterMap _ = _
  rw [List.filterMap_map, List.filter_filterMap]
  congr 1
  funext value
  exact value.unresolved?_fill table file.filename enum.name

theorem openReferences_resolveEnums (files : List File) :
    openReferences (resolveEnums files) = (openReferences files).filter fun reference =>
      ((symbolTable files).lookup reference.symbol).isNone := by
  unfold openReferences
  rw [resolveEnums, List.flatMap_map, List.filter_flatMap]
  congr 1
  funext file
  exact file.unresolved_fill (symbolTable files)

/-! ## One round and the next -/

/-- Resolving keeps every number that is known, whatever it is and wherever it comes from, and
changes nothing but open references.  Doing so again changes no file and reports the same.  What is
reported are the open references whose symbols no chain of open references leads to a number. -/
theorem resolveEnums_settles (files : List File) :
    List.Forall₂ File.Keeps files (resolveEnums files) ∧
      resolveEnums (resolveEnums files) = resolveEnums files ∧
      openReferences (resolveEnums (resolveEnums files)) = openReferences (resolveEnums files) ∧
      ∃ known : String → Bool,
        (∀ symbol, known symbol = true ↔ ∃ number, SymbolTable.ChainTo
          (files.flatMap File.literals) (files.flatMap File.links) symbol number) ∧
        openReferences (resolveEnums files) =
          (openReferences files).filter fun reference => !known reference.symbol := by
  have hKeeps : List.Forall₂ File.Keeps files (resolveEnums files) := by
    rw [resolveEnums, List.forall₂_map_right_iff, List.forall₂_same]
    exact fun file _ => file.keeps_fill (symbolTable files)
  have hAgain : resolveEnums (resolveEnums files) = resolveEnums files :=
    resolveEnums_resolveEnums files
  have hReport : openReferences (resolveEnums files) = (openReferences files).filter
      fun reference => !((symbolTable files).lookup reference.symbol).isSome := by
    simp only [Option.not_isSome]
    exact openReferences_resolveEnums files
  refine ⟨hKeeps, hAgain, by rw [hAgain], fun symbol => ((symbolTable files).lookup symbol).isSome,
    fun symbol => ?_, hReport⟩
  exact SymbolTable.isSome_lookup_closure_iff

/-- A reference that has come with a number is no entry of the table, so one to its name stays
open. -/
example :
    let values : List EnumValue :=
      [⟨"A", .reference "B" (some 5), 2⟩, ⟨"C", .reference "A" none, 3⟩]
    let files : List File := [⟨"a.x", none, [.enum ⟨"E", values, 1⟩]⟩]
    openReferences (resolveEnums files) = [⟨"a.x", "E", "C", "A", 3⟩] := by
  decide

end XdrBindings.Idl
