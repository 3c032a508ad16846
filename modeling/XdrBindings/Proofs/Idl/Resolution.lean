import Mathlib.Data.List.Forall2
import Mathlib.Data.List.Nodup
import XdrBindings.Proofs.Idl.SymbolTable

/-!
# Values of enumerations across files

What the files say about numbers is one list of entries: the constants and the enumeration values
with their names, file by file and in each file the constants first.  Filling in the references is
described by that list alone.  A reference gets a number if and only if a chain of entries leads
from its symbol to a number that is written down; nothing else changes in the files; and the
references without a number are the ones that are reported.

## Main results

* `mem_literals_iff`, `mem_links_iff` — the symbol table starts with the entries.
* `EndsAt.unique` — where all names differ, a chain ends at one number.
* `resolveEnums_follows_chains` — references are filled in along chains.
-/

namespace XdrBindings.Idl

open Relation

/-! ## Entries -/

/-- The constants and the enumeration values of a file with their names, constants first. -/
def File.entries (file : File) : List (String × EnumSource) :=
  file.constants.map (fun constant => (constant.name, .literal constant.value)) ++
    file.enums.flatMap fun enum => enum.values.map fun value => (value.name, value.source)

/-- The entries of files, file by file. -/
def entriesOf (files : List File) : List (String × EnumSource) := files.flatMap File.entries

/-- Whether no reference of the files is resolved yet. -/
def IsOpen (files : List File) : Prop :=
  ∀ entry ∈ entriesOf files, ∀ symbol number, entry.2 ≠ .reference symbol (some number)

/-- Whether an enumeration value with the first name is written as a reference to the second. -/
def Refers (files : List File) (name symbol : String) : Prop :=
  ∃ resolved, (name, .reference symbol resolved) ∈ entriesOf files

/-- Whether a chain of references leads from a name to a constant or an enumeration value that is
written as the number. -/
def EndsAt (files : List File) (name : String) (number : Int) : Prop :=
  ∃ last, ReflTransGen (Refers files) name last ∧ (last, .literal number) ∈ entriesOf files

/-! ## The symbol table of the entries -/

/-- The number that an entry is written as. -/
def numberOf? : String × EnumSource → Option (String × Int)
  | (name, .literal number) => some (name, number)
  | (_, .reference _ _) => none

theorem literals_eq (file : File) : file.literals = file.entries.filterMap numberOf? := by
  unfold File.literals File.entries
  rw [List.filterMap_append, List.filterMap_map, List.filterMap_flatMap]
  congr 1
  · rw [← List.filterMap_eq_map]
    rfl
  · congr 1
    funext enum
    rw [List.filterMap_map]
    congr 1
    funext value
    obtain ⟨name, source, line⟩ := value
    cases source <;> rfl

theorem flatMap_literals (files : List File) :
    files.flatMap File.literals = (entriesOf files).filterMap numberOf? := by
  rw [entriesOf, List.filterMap_flatMap]
  congr 1
  funext file
  exact literals_eq file

theorem mem_literals_iff {files : List File} {name : String} {number : Int} :
    (name, number) ∈ files.flatMap File.literals ↔ (name, .literal number) ∈ entriesOf files := by
  rw [flatMap_literals, List.mem_filterMap]
  constructor
  · rintro ⟨⟨other, source⟩, hEntry, hNumber⟩
    cases source with
    | literal value =>
      cases hNumber
      exact hEntry
    | reference symbol resolved => cases hNumber
  · exact fun hEntry => ⟨_, hEntry, rfl⟩

/-- The name and the symbol of an entry that is an open reference. -/
def linkOf? : String × EnumSource → Option (String × String)
  | (name, .reference symbol none) => some (name, symbol)
  | _ => none

theorem links_eq (file : File) : file.links = file.entries.filterMap linkOf? := by
  unfold File.links File.entries
  rw [List.filterMap_append, List.filterMap_map, List.filterMap_flatMap]
  have hConstants : file.constants.filterMap
      (linkOf? ∘ fun constant => (constant.name, .literal constant.value)) = [] := by
    simp [List.filterMap_eq_nil_iff, linkOf?]
  rw [hConstants, List.nil_append]
  congr 1
  funext enum
  rw [List.filterMap_map]
  congr 1
  funext value
  obtain ⟨name, source, line⟩ := value
  rcases source with number | ⟨symbol, _ | number⟩ <;> rfl

theorem mem_links_iff {files : List File} (hOpen : IsOpen files) {name symbol : String} :
    (name, symbol) ∈ files.flatMap File.links ↔ Refers files name symbol := by
  have hAll : files.flatMap File.links = (entriesOf files).filterMap linkOf? := by
    rw [entriesOf, List.filterMap_flatMap]
    congr 1
    funext file
    exact links_eq file
  rw [hAll, List.mem_filterMap]
  constructor
  · rintro ⟨⟨other, source⟩, hEntry, hLink⟩
    rcases source with number | ⟨target, _ | number⟩ <;> cases hLink
    exact ⟨none, hEntry⟩
  · rintro ⟨_ | number, hEntry⟩
    · exact ⟨_, hEntry, rfl⟩
    · exact absurd rfl (hOpen _ hEntry symbol number)

/-! ## Chains of entries -/

/-- Chains of the symbol table are chains of entries. -/
theorem endsAt_of_chainTo {files : List File} (hOpen : IsOpen files) {name : String} {number : Int}
    (h : SymbolTable.ChainTo (files.flatMap File.literals) (files.flatMap File.links) name number) :
    EndsAt files name number := by
  obtain ⟨last, hChain, hLast⟩ := h
  obtain ⟨front, back, hEntry, -⟩ := List.lookup_eq_some_iff.mp hLast
  refine ⟨last, ReflTransGen.mono (fun _ _ => (mem_links_iff hOpen).mp) _ _ hChain,
    mem_literals_iff.mp ?_⟩
  rw [hEntry]
  simp

theorem exists_chainTo_of_endsAt {files : List File} (hOpen : IsOpen files) {name : String}
    {number : Int} (h : EndsAt files name number) :
    ∃ first, SymbolTable.ChainTo (files.flatMap File.literals) (files.flatMap File.links) name
      first := by
  obtain ⟨last, hChain, hEntry⟩ := h
  have hKnown : ((files.flatMap File.literals).lookup last).isSome = true :=
    List.lookup_isSome_iff.mpr ⟨_, mem_literals_iff.mpr hEntry, BEq.rfl⟩
  obtain ⟨first, hFirst⟩ := Option.isSome_iff_exists.mp hKnown
  exact ⟨first, last, ReflTransGen.mono (fun _ _ => (mem_links_iff hOpen).mpr) _ _ hChain, hFirst⟩

theorem isSome_lookup_symbolTable_iff {files : List File} (hOpen : IsOpen files) {name : String} :
    ((symbolTable files).lookup name).isSome = true ↔ ∃ number, EndsAt files name number := by
  unfold symbolTable
  rw [SymbolTable.isSome_lookup_closure_iff]
  constructor
  · rintro ⟨number, hChain⟩
    exact ⟨number, endsAt_of_chainTo hOpen hChain⟩
  · rintro ⟨number, hEnds⟩
    exact exists_chainTo_of_endsAt hOpen hEnds

theorem endsAt_of_lookup_symbolTable {files : List File} (hOpen : IsOpen files) {name : String}
    {number : Int} (h : (symbolTable files).lookup name = some number) : EndsAt files name number :=
  endsAt_of_chainTo hOpen (SymbolTable.exists_chain_of_lookup_closure h)

/-- The first number that a name is written as counts. -/
theorem lookup_symbolTable_of_first {files : List File} {name : String} {number : Int}
    {front back : List (String × EnumSource)}
    (hEntries : entriesOf files = front ++ (name, .literal number) :: back)
    (hFirst : ∀ other, (name, .literal other) ∉ front) :
    (symbolTable files).lookup name = some number := by
  apply SymbolTable.lookup_closure
  have hNone : (front.filterMap numberOf?).lookup name = none := by
    rw [List.lookup_eq_none_iff]
    rintro ⟨known, value⟩ hMem
    obtain ⟨⟨other, source⟩, hEntry, hNumber⟩ := List.mem_filterMap.mp hMem
    cases source with
    | literal written =>
      cases hNumber
      rw [bne_iff_ne]
      rintro rfl
      exact hFirst _ hEntry
    | reference symbol resolved => cases hNumber
  rw [flatMap_literals, hEntries, List.filterMap_append, SymbolTable.lookup_append, hNone,
    Option.none_or]
  simp [numberOf?]

/-! ## Distinct names -/

/-- Where all names differ, a name has one entry. -/
theorem source_unique {files : List File} (hNames : ((entriesOf files).map Prod.fst).Nodup)
    {name : String} {first second : EnumSource} (hFirst : (name, first) ∈ entriesOf files)
    (hSecond : (name, second) ∈ entriesOf files) : first = second :=
  congrArg Prod.snd (List.inj_on_of_nodup_map hNames hFirst hSecond rfl)

/-- Where all names differ, a chain ends at one number. -/
theorem EndsAt.unique {files : List File} (hNames : ((entriesOf files).map Prod.fst).Nodup)
    {name : String} {first second : Int} (hFirst : EndsAt files name first)
    (hSecond : EndsAt files name second) : first = second := by
  obtain ⟨last, hChain, hLast⟩ := hFirst
  induction hChain using ReflTransGen.head_induction_on with
  | refl =>
    obtain ⟨other, hOther, hEntry⟩ := hSecond
    rcases hOther.cases_head with rfl | ⟨next, ⟨resolved, hLink⟩, -⟩
    · exact EnumSource.literal.inj (source_unique hNames hLast hEntry)
    · cases source_unique hNames hLast hLink
  | head hLink _ ih =>
    obtain ⟨resolved, hRefers⟩ := hLink
    obtain ⟨other, hOther, hEntry⟩ := hSecond
    rcases hOther.cases_head with rfl | ⟨next, ⟨further, hNext⟩, hRest⟩
    · cases source_unique hNames hRefers hEntry
    · cases source_unique hNames hRefers hNext
      exact ih ⟨other, hRest, hEntry⟩

theorem IsOpen.perm {files other : List File} (h : IsOpen files) (hPerm : other.Perm files) :
    IsOpen other := fun entry hEntry =>
  h entry ((hPerm.flatMap_right File.entries).mem_iff.mp hEntry)

theorem EndsAt.perm {files other : List File} (hPerm : other.Perm files) {name : String}
    {number : Int} (h : EndsAt other name number) : EndsAt files name number := by
  have hEntries {entry : String × EnumSource} (hEntry : entry ∈ entriesOf other) :
      entry ∈ entriesOf files := (hPerm.flatMap_right File.entries).mem_iff.mp hEntry
  obtain ⟨last, hChain, hLast⟩ := h
  refine ⟨last, ReflTransGen.mono ?_ _ _ hChain, hEntries hLast⟩
  rintro a b ⟨resolved, hEntry⟩
  exact ⟨resolved, hEntries hEntry⟩

theorem lookup_symbolTable_eq_some_iff {files : List File} (hOpen : IsOpen files)
    (hNames : ((entriesOf files).map Prod.fst).Nodup) {name : String} {number : Int} :
    (symbolTable files).lookup name = some number ↔ EndsAt files name number := by
  constructor
  · exact endsAt_of_lookup_symbolTable hOpen
  · intro hEnds
    obtain ⟨other, hOther⟩ := Option.isSome_iff_exists.mp
      ((isSome_lookup_symbolTable_iff hOpen).mpr ⟨number, hEnds⟩)
    rw [hOther, (endsAt_of_lookup_symbolTable hOpen hOther).unique hNames hEnds]

/-- Where all names differ, the order of the files does not matter. -/
theorem lookup_symbolTable_perm {files other : List File} (hOpen : IsOpen files)
    (hNames : ((entriesOf files).map Prod.fst).Nodup) (hPerm : other.Perm files) (name : String) :
    (symbolTable other).lookup name = (symbolTable files).lookup name := by
  have hOtherNames : ((entriesOf other).map Prod.fst).Nodup :=
    ((hPerm.flatMap_right File.entries).map Prod.fst).nodup_iff.mpr hNames
  refine Option.ext fun number => ?_
  rw [lookup_symbolTable_eq_some_iff (hOpen.perm hPerm) hOtherNames,
    lookup_symbolTable_eq_some_iff hOpen hNames]
  exact ⟨EndsAt.perm hPerm, EndsAt.perm hPerm.symm⟩

/-! ## Files that are filled in -/

/-- A source and the source in its place: an open reference has the number of its symbol. -/
inductive EnumSource.Filled (numbers : String → Option Int) : EnumSource → EnumSource → Prop
  | literal (number : Int) : Filled numbers (.literal number) (.literal number)
  | reference (symbol : String) :
      Filled numbers (.reference symbol none) (.reference symbol (numbers symbol))

/-- An enumeration value and the value in its place. -/
structure EnumValue.Filled (numbers : String → Option Int) (old new : EnumValue) : Prop where
  name : new.name = old.name
  source : old.source.Filled numbers new.source
  line : new.line = old.line

/-- A definition and the definition in its place: only the values of enumerations may differ. -/
inductive Definition.Filled (numbers : String → Option Int) : Definition → Definition → Prop
  | enum {name : String} {line : Nat} {old new : List EnumValue}
      (hValues : List.Forall₂ (EnumValue.Filled numbers) old new) :
      Filled numbers (.enum ⟨name, old, line⟩) (.enum ⟨name, new, line⟩)
  | other {definition : Definition} (hOther : definition.enum? = none) :
      Filled numbers definition definition

/-- A file and the file in its place. -/
structure File.Filled (numbers : String → Option Int) (old new : File) : Prop where
  filename : new.filename = old.filename
  nameSpace : new.nameSpace = old.nameSpace
  definitions : List.Forall₂ (Definition.Filled numbers) old.definitions new.definitions

theorem filled_fill {file : File} (hOpen : IsOpen [file]) (table : SymbolTable) :
    file.Filled (fun name => table.lookup name) (file.fill table) where
  filename := rfl
  nameSpace := rfl
  definitions := by
    unfold File.fill
    rw [List.forall₂_map_right_iff, List.forall₂_same]
    intro definition hDefinition
    cases definition with
    | enum declared =>
      refine .enum ?_
      rw [List.forall₂_map_right_iff, List.forall₂_same]
      intro value hValue
      refine ⟨rfl, ?_, rfl⟩
      have hEntry : (value.name, value.source) ∈ entriesOf [file] := by
        unfold entriesOf File.entries
        have hEnum : declared ∈ file.enums :=
          List.mem_filterMap.mpr ⟨_, hDefinition, rfl⟩
        simp only [List.flatMap_cons, List.flatMap_nil, List.append_nil, List.mem_append]
        exact .inr (List.mem_flatMap.mpr ⟨declared, hEnum, List.mem_map.mpr ⟨value, hValue, rfl⟩⟩)
      have hUnresolved := hOpen _ hEntry
      obtain ⟨name, source, line⟩ := value
      rcases source with number | ⟨symbol, _ | number⟩
      · exact .literal number
      · exact .reference symbol
      · exact absurd rfl (hUnresolved symbol number)
    | constant declared => exact .other rfl
    | typedef declared => exact .other rfl
    | struct declared => exact .other rfl
    | union declared => exact .other rfl

theorem filled_resolveEnums {files : List File} (hOpen : IsOpen files) :
    List.Forall₂ (File.Filled fun name => (symbolTable files).lookup name) files
      (resolveEnums files) := by
  unfold resolveEnums
  rw [List.forall₂_map_right_iff, List.forall₂_same]
  intro file hFile
  refine filled_fill (fun entry hEntry => hOpen entry ?_) _
  rw [entriesOf, List.flatMap_singleton] at hEntry
  exact List.mem_flatMap.mpr ⟨file, hFile, hEntry⟩

/-! ## What is reported -/

/-- A reference whose symbol has no number, as it is reported. -/
def EnumValue.unanswered? (numbers : String → Option Int) (file enum : String)
    (value : EnumValue) : Option Unresolved :=
  match value.source with
  | .literal _ => none
  | .reference symbol _ =>
    if (numbers symbol).isNone then some ⟨file, enum, value.name, symbol, value.line⟩ else none

/-- The references of files whose symbols have no number, in the order of files, enumerations and
values. -/
def unanswered (numbers : String → Option Int) (files : List File) : List Unresolved :=
  files.flatMap fun file => file.enums.flatMap fun enum =>
    enum.values.filterMap (EnumValue.unanswered? numbers file.filename enum.name)

section Reported

variable {numbers : String → Option Int}

theorem EnumValue.Filled.unresolved?_eq {old new : EnumValue} (h : old.Filled numbers new)
    (file enum : String) : new.unresolved? file enum = old.unanswered? numbers file enum := by
  obtain ⟨name, source, line⟩ := old
  obtain ⟨newName, newSource, newLine⟩ := new
  obtain ⟨hName, hSource, hLine⟩ := h
  cases hName
  cases hLine
  cases hSource with
  | literal number => rfl
  | reference symbol =>
    simp only [EnumValue.unresolved?, EnumValue.link?, EnumValue.unanswered?]
    cases numbers symbol <;> rfl

theorem filterMap_unresolved?_of_filled {old new : List EnumValue}
    (h : List.Forall₂ (EnumValue.Filled numbers) old new) (file enum : String) :
    new.filterMap (EnumValue.unresolved? file enum) =
      old.filterMap (EnumValue.unanswered? numbers file enum) := by
  induction h with
  | nil => rfl
  | cons hFirst _ ih =>
    rw [List.filterMap_cons, List.filterMap_cons, hFirst.unresolved?_eq, ih]

theorem flatMap_enums_of_filled {old new : List Definition}
    (h : List.Forall₂ (Definition.Filled numbers) old new) (file : String) :
    ((new.filterMap Definition.enum?).flatMap fun enum =>
      enum.values.filterMap (EnumValue.unresolved? file enum.name)) =
    (old.filterMap Definition.enum?).flatMap fun enum =>
      enum.values.filterMap (EnumValue.unanswered? numbers file enum.name) := by
  induction h with
  | nil => rfl
  | cons hFirst _ ih =>
    cases hFirst with
    | enum hValues =>
      simp only [List.filterMap_cons, Definition.enum?, List.flatMap_cons, ih,
        filterMap_unresolved?_of_filled hValues]
    | other hOther => rw [List.filterMap_cons_none hOther, List.filterMap_cons_none hOther, ih]

theorem openReferences_of_filled {old new : List File}
    (h : List.Forall₂ (File.Filled numbers) old new) :
    openReferences new = unanswered numbers old := by
  induction h with
  | nil => rfl
  | @cons first second _ _ hFirst _ ih =>
    have hFile : second.unresolved = unanswered numbers [first] := by
      rw [unanswered, List.flatMap_singleton, ← hFirst.filename]
      exact flatMap_enums_of_filled hFirst.definitions second.filename
    rw [unanswered, List.flatMap_singleton] at hFile
    unfold openReferences unanswered at ih ⊢
    rw [List.flatMap_cons, List.flatMap_cons, ih, hFile]

end Reported

/-! ## Resolution -/

/-- A reference gets a number if and only if a chain of references leads from its symbol to a
constant or an enumeration value that is written as a number.  The first such number of the symbol
itself counts.  Where all names differ, it is the number at the end of the chain, and the order of
the files does not matter.  Nothing but the references changes, and those without a number are
reported. -/
theorem resolveEnums_follows_chains (files : List File) (hOpen : IsOpen files) :
    ∃ numbers : String → Option Int,
      List.Forall₂ (File.Filled numbers) files (resolveEnums files) ∧
      (∀ symbol, (numbers symbol).isSome = true ↔ ∃ number, EndsAt files symbol number) ∧
      (∀ symbol number front back,
        entriesOf files = front ++ (symbol, .literal number) :: back →
        (∀ other, (symbol, .literal other) ∉ front) → numbers symbol = some number) ∧
      (((entriesOf files).map Prod.fst).Nodup →
        (∀ symbol number, numbers symbol = some number ↔ EndsAt files symbol number) ∧
        ∀ other : List File, other.Perm files →
          List.Forall₂ (File.Filled numbers) other (resolveEnums other)) ∧
      openReferences (resolveEnums files) = unanswered numbers files := by
  refine ⟨fun name => (symbolTable files).lookup name, filled_resolveEnums hOpen,
    fun _ => isSome_lookup_symbolTable_iff hOpen, fun _ _ _ _ => lookup_symbolTable_of_first, ?_,
    openReferences_of_filled (filled_resolveEnums hOpen)⟩
  intro hNames
  refine ⟨fun _ _ => lookup_symbolTable_eq_some_iff hOpen hNames, fun other hPerm => ?_⟩
  have hFilled := filled_resolveEnums (hOpen.perm hPerm)
  simp only [lookup_symbolTable_perm hOpen hNames hPerm] at hFilled
  exact hFilled

/-- Files in which a chain of references leads from the first file to a constant of the second, and
two references lead to each other. -/
def chainedFiles : List File :=
  [⟨"a.x", none, [.enum ⟨"Color",
      [⟨"RED", .reference "BASE" none, 2⟩, ⟨"GREEN", .reference "RED" none, 3⟩], 1⟩]⟩,
    ⟨"b.x", none, [.enum ⟨"Loop",
      [⟨"PING", .reference "PONG" none, 2⟩, ⟨"PONG", .reference "PING" none, 3⟩], 1⟩,
      .constant ⟨"BASE", 7, 5⟩]⟩]

theorem resolveEnums_chainedFiles : IsOpen chainedFiles ∧ ∃ numbers : String → Option Int,
    List.Forall₂ (File.Filled numbers) chainedFiles (resolveEnums chainedFiles) ∧
      numbers "RED" = some 7 := by
  have hEntries : entriesOf chainedFiles =
      [("RED", .reference "BASE" none), ("GREEN", .reference "RED" none), ("BASE", .literal 7),
        ("PING", .reference "PONG" none), ("PONG", .reference "PING" none)] := rfl
  have hOpen : IsOpen chainedFiles := by
    rw [IsOpen, hEntries]
    simp
  have hRed : EndsAt chainedFiles "RED" 7 := by
    refine ⟨"BASE", .single ⟨none, ?_⟩, ?_⟩ <;> simp [hEntries]
  obtain ⟨numbers, hFilled, -, -, hNames, -⟩ := resolveEnums_follows_chains chainedFiles hOpen
  have hNodup : ((entriesOf chainedFiles).map Prod.fst).Nodup := by
    rw [hEntries]
    decide
  exact ⟨hOpen, numbers, hFilled, ((hNames hNodup).1 "RED" 7).mpr hRed⟩

end XdrBindings.Idl
