import XdrBindings.Proofs.Idl.Filling
import XdrBindings.Proofs.Idl.WellFormed

/-!
# Resolving references step by step

The references of a single file can be resolved on their own, with what the file itself says.  Such
steps find no wrong number.  But a reference that has been resolved gives its name to no table any
more, so a reference to it from another file stays open when all files are resolved afterwards.
Where no file that takes a step has a reference of this sort, resolving in steps agrees with
resolving at once; where one has, the references that are reported differ.

## Main results

* `resolveSteps_eq` — the files after some steps, each filled in from its own table at most once.
* `forall₂_resolveSteps` — each number that is found is the one at the end of the chain.
* `isOpen_of_parse` — no reference of a parsed file is resolved.
* `resolveSteps_agree_iff` — when resolving in steps agrees with resolving at once.
-/

namespace XdrBindings.Idl

open Relation

variable {files : List File} {file other : File} {steps : List Nat} {name symbol : String}
  {number : Int}

/-! ## Steps -/

/-- The references of a file that can be followed within the file, filled in. -/
def File.resolveOwn (file : File) : File := file.fill (symbolTable [file])

theorem resolveEnums_singleton (file : File) : resolveEnums [file] = [file.resolveOwn] := rfl

theorem File.resolveOwn_resolveOwn (file : File) :
    file.resolveOwn.resolveOwn = file.resolveOwn := by
  have hAgain := resolveEnums_resolveEnums [file]
  rw [resolveEnums_singleton, resolveEnums_singleton] at hAgain
  exact List.singleton_inj.mp hAgain

/-- The files after the references of one of them have been resolved on their own. -/
def resolveAt (files : List File) (index : Nat) : List File := files.modify index File.resolveOwn

/-- The files after some such steps. -/
def resolveSteps (files : List File) (steps : List Nat) : List File := steps.foldl resolveAt files

/-- What a file has looked up on its own in some steps. -/
def ownTable (steps : List Nat) (index : Nat) (file : File) : SymbolTable :=
  if index ∈ steps then symbolTable [file] else []

theorem resolveSteps_eq (files : List File) (steps : List Nat) :
    resolveSteps files steps =
      files.mapIdx fun index file => file.fill (ownTable steps index file) := by
  induction steps using List.reverseRecOn with
  | nil => simp [resolveSteps, ownTable, File.fill_nil, List.ext_getElem?_iff, List.getElem?_mapIdx]
  | append_singleton steps step ih =>
    have hStep : resolveSteps files (steps ++ [step]) =
        (resolveSteps files steps).modify step File.resolveOwn := by
      rw [resolveSteps, List.foldl_append]
      rfl
    rw [hStep, ih]
    refine List.ext_getElem? fun index => ?_
    rw [List.getElem?_modify, List.getElem?_mapIdx, List.getElem?_mapIdx]
    cases files[index]? with
    | none => rfl
    | some file =>
      refine congrArg some ?_
      by_cases hHere : step = index
      · subst hHere
        by_cases hEarlier : step ∈ steps
        · have hAgain : (file.fill (symbolTable [file])).resolveOwn =
              file.fill (symbolTable [file]) := file.resolveOwn_resolveOwn
          simpa [ownTable, hEarlier] using hAgain
        · simp [ownTable, hEarlier, File.fill_nil, File.resolveOwn]
      · simp [ownTable, hHere, Ne.symm hHere]

/-! ## References within a file and between files -/

theorem entriesOf_singleton (file : File) : entriesOf [file] = file.entries :=
  List.flatMap_singleton ..

theorem entries_subset_entriesOf (h : file ∈ files) : file.entries ⊆ entriesOf files :=
  fun _ hEntry => List.mem_flatMap.mpr ⟨file, h, hEntry⟩

theorem IsOpen.of_mem (hOpen : IsOpen files) (h : file ∈ files) : IsOpen [file] := by
  unfold IsOpen
  rw [entriesOf_singleton]
  exact fun entry hEntry => hOpen entry (entries_subset_entriesOf h hEntry)

theorem Refers.exists_file (h : Refers files name symbol) :
    ∃ index : Nat, ∃ file ∈ files[index]?, Refers [file] name symbol := by
  obtain ⟨resolved, hEntry⟩ := h
  obtain ⟨file, hFile, hEntry⟩ := List.mem_flatMap.mp hEntry
  obtain ⟨index, hIndex⟩ := List.mem_iff_getElem?.mp hFile
  exact ⟨index, file, hIndex, resolved, (entriesOf_singleton file).symm ▸ hEntry⟩

theorem EndsAt.of_mem (h : file ∈ files) (hEnds : EndsAt [file] name number) :
    EndsAt files name number := by
  obtain ⟨last, hChain, hLast⟩ := hEnds
  rw [entriesOf_singleton] at hLast
  refine ⟨last, ReflTransGen.mono ?_ _ _ hChain, entries_subset_entriesOf h hLast⟩
  rintro a b ⟨resolved, hEntry⟩
  rw [entriesOf_singleton] at hEntry
  exact ⟨resolved, entries_subset_entriesOf h hEntry⟩

theorem EndsAt.head (hRefers : Refers files name symbol) (hEnds : EndsAt files symbol number) :
    EndsAt files name number := by
  obtain ⟨last, hChain, hLast⟩ := hEnds
  exact ⟨last, .head hRefers hChain, hLast⟩

/-- A name that a chain starts from is the name of an entry. -/
theorem EndsAt.exists_mem (hEnds : EndsAt [file] name number) :
    ∃ source, (name, source) ∈ file.entries := by
  obtain ⟨last, hChain, hLast⟩ := hEnds
  rw [entriesOf_singleton] at hLast
  rcases hChain.cases_head with rfl | ⟨next, ⟨resolved, hEntry⟩, -⟩
  · exact ⟨_, hLast⟩
  · rw [entriesOf_singleton] at hEntry
    exact ⟨_, hEntry⟩

/-- Where all names differ, no two files have entries of one name. -/
theorem index_eq_of_mem_entries (hNames : ((entriesOf files).map Prod.fst).Nodup)
    {first second : Nat} (hFirst : file ∈ files[first]?) (hSecond : other ∈ files[second]?)
    {a b : EnumSource} (ha : (name, a) ∈ file.entries) (hb : (name, b) ∈ other.entries) :
    first = second := by
  rw [entriesOf, List.map_flatMap, List.nodup_flatMap, List.pairwise_iff_getElem] at hNames
  obtain ⟨hFirstLt, rfl⟩ := List.getElem?_eq_some_iff.mp hFirst
  obtain ⟨hSecondLt, rfl⟩ := List.getElem?_eq_some_iff.mp hSecond
  have ha := List.mem_map_of_mem (f := Prod.fst) ha
  have hb := List.mem_map_of_mem (f := Prod.fst) hb
  rcases Nat.lt_trichotomy first second with hLt | hEq | hLt
  · exact absurd hb (hNames.2 first second hFirstLt hSecondLt hLt ha)
  · exact hEq
  · exact absurd ha (hNames.2 second first hSecondLt hFirstLt hLt hb)

/-! ## After some steps -/

theorem exists_of_lookup_ownTable (hOpen : IsOpen files) {index : Nat}
    (hFile : file ∈ files[index]?)
    (h : (ownTable steps index file).lookup symbol = some number) :
    index ∈ steps ∧ EndsAt [file] symbol number := by
  unfold ownTable at h
  split at h
  · exact ⟨‹_›, endsAt_of_lookup_symbolTable (hOpen.of_mem (List.mem_of_getElem? hFile)) h⟩
  · cases h

theorem isSome_lookup_ownTable (hOpen : IsOpen files) {index : Nat} (hFile : file ∈ files[index]?)
    (hStep : index ∈ steps) (hEnds : EndsAt [file] symbol number) :
    ((ownTable steps index file).lookup symbol).isSome = true := by
  rw [ownTable, if_pos hStep]
  exact (isSome_lookup_symbolTable_iff (hOpen.of_mem (List.mem_of_getElem? hFile))).mpr
    ⟨number, hEnds⟩

theorem flatMap_literals_resolveSteps (files : List File) (steps : List Nat) :
    (resolveSteps files steps).flatMap File.literals = files.flatMap File.literals := by
  rw [resolveSteps_eq, List.mapIdx_eq_zipIdx_map, List.flatMap_map]
  simp only [File.literals_fill]
  conv_rhs => rw [← List.zipIdx_map_fst 0 files, List.flatMap_map]

theorem mem_links_resolveSteps {link : String × String} :
    link ∈ (resolveSteps files steps).flatMap File.links ↔
      ∃ index : Nat, ∃ file ∈ files[index]?, link ∈ file.links ∧
        (ownTable steps index file).lookup link.2 = none := by
  rw [resolveSteps_eq, List.mem_flatMap]
  constructor
  · rintro ⟨new, hNew, hLink⟩
    obtain ⟨index, hIndex⟩ := List.mem_iff_getElem?.mp hNew
    rw [List.getElem?_mapIdx] at hIndex
    obtain ⟨file, hFile, rfl⟩ := Option.map_eq_some_iff.mp hIndex
    exact ⟨index, file, hFile, File.mem_links_fill.mp hLink⟩
  · rintro ⟨index, file, hFile, hLink⟩
    refine ⟨_, List.mem_iff_getElem?.mpr ⟨index, ?_⟩, File.mem_links_fill.mpr hLink⟩
    rw [List.getElem?_mapIdx, show files[index]? = some file from hFile]
    rfl

theorem links_resolveSteps_subset (files : List File) (steps : List Nat) :
    (resolveSteps files steps).flatMap File.links ⊆ files.flatMap File.links := by
  intro link hLink
  obtain ⟨index, file, hFile, hLink, -⟩ := mem_links_resolveSteps.mp hLink
  exact List.mem_flatMap.mpr ⟨file, List.mem_of_getElem? hFile, hLink⟩

/-- A chain that is left after some steps is a chain of the files. -/
theorem endsAt_of_lookup_resolveSteps (hOpen : IsOpen files)
    (h : (symbolTable (resolveSteps files steps)).lookup name = some number) :
    EndsAt files name number := by
  obtain ⟨last, hChain, hLast⟩ := SymbolTable.exists_chain_of_lookup_closure h
  rw [flatMap_literals_resolveSteps] at hLast
  exact endsAt_of_chainTo hOpen ⟨last, ReflTransGen.mono
    (fun _ _ hLink => links_resolveSteps_subset files steps hLink) _ _ hChain, hLast⟩

/-- What a file has looked up on its own counts before what the files say after the steps. -/
theorem resolveEnums_resolveSteps (files : List File) (steps : List Nat) :
    resolveEnums (resolveSteps files steps) = files.mapIdx fun index file =>
      file.fill (ownTable steps index file ++ symbolTable (resolveSteps files steps)) := by
  unfold resolveEnums
  generalize symbolTable (resolveSteps files steps) = table
  rw [resolveSteps_eq, List.mapIdx_eq_zipIdx_map, List.mapIdx_eq_zipIdx_map, List.map_map]
  simp only [Function.comp_def, File.fill_fill]

theorem endsAt_of_lookup_append (hOpen : IsOpen files) {index : Nat} (hFile : file ∈ files[index]?)
    (h : (ownTable steps index file ++ symbolTable (resolveSteps files steps)).lookup symbol =
      some number) : EndsAt files symbol number := by
  rw [SymbolTable.lookup_append] at h
  rcases Option.or_eq_some_iff.mp h with hOwn | ⟨-, hAll⟩
  · exact (exists_of_lookup_ownTable hOpen hFile hOwn).2.of_mem (List.mem_of_getElem? hFile)
  · exact endsAt_of_lookup_resolveSteps hOpen hAll

/-- Nothing but references changes, and each number that is found is the one at the end of the
chain. -/
theorem forall₂_resolveSteps (hOpen : IsOpen files) (steps : List Nat) :
    List.Forall₂ (fun old new => ∃ numbers : String → Option Int, old.Filled numbers new ∧
      ∀ symbol number, numbers symbol = some number → EndsAt files symbol number)
      files (resolveEnums (resolveSteps files steps)) := by
  rw [resolveEnums_resolveSteps, List.forall₂_iff_get]
  refine ⟨List.length_mapIdx.symm, fun index hLt _ => ?_⟩
  have hFile : files[index] ∈ files[index]? := List.getElem?_eq_getElem hLt
  simp only [List.get_eq_getElem, List.getElem_mapIdx]
  exact ⟨_, filled_fill (hOpen.of_mem (List.getElem_mem hLt)) _,
    fun _ _ hNumber => endsAt_of_lookup_append hOpen hFile hNumber⟩

/-! ## When steps do no harm -/

/-- Whether a name is a reference of the file that can be followed within the file. -/
def File.FollowsOwn (file : File) (name : String) : Prop :=
  ∃ symbol number, Refers [file] name symbol ∧ EndsAt [file] symbol number

/-- Whether a file has a reference that it can follow on its own and that another file refers to. -/
def SharesReference (files : List File) (index : Nat) : Prop :=
  ∃ file ∈ files[index]?, ∃ name, file.FollowsOwn name ∧
    ∃ place, place ≠ index ∧ ∃ other ∈ files[place]?, ∃ user, Refers [other] user name

theorem isSome_lookup_of_mem_links {link : String × String}
    (hLink : link ∈ files.flatMap File.links)
    (h : ((symbolTable files).lookup link.2).isSome = true) :
    ((symbolTable files).lookup link.1).isSome = true :=
  SymbolTable.isSome_lookup_close (Nat.le_refl _) hLink h

theorem mem_links_singleton (hOpen : IsOpen files) (hFile : file ∈ files) :
    (name, symbol) ∈ file.links ↔ Refers [file] name symbol := by
  rw [← mem_links_iff (hOpen.of_mem hFile), List.flatMap_singleton]

/-- Where no step resolves a reference that another file refers to, what refers to a reference that
a step has resolved stands in the same file. -/
theorem endsAt_of_followsOwn (hShares : ∀ index ∈ steps, ¬SharesReference files index)
    {index place : Nat} (hFile : file ∈ files[index]?) (hRefers : Refers [file] name symbol)
    (hPlace : place ∈ steps) (hOther : other ∈ files[place]?) (hFollows : other.FollowsOwn symbol) :
    index = place ∧ ∃ number, EndsAt [file] symbol number := by
  have hSame : index = place := by
    by_contra hElsewhere
    exact hShares place hPlace
      ⟨other, hOther, symbol, hFollows, index, hElsewhere, file, hFile, name, hRefers⟩
  subst hSame
  obtain rfl : file = other := Option.mem_unique hFile hOther
  obtain ⟨target, number, hTarget, hEnds⟩ := hFollows
  exact ⟨rfl, number, hEnds.head hTarget⟩

/-- Where no step resolves a reference that another file refers to, every chain is followed: what
is not in the table after the steps is a reference that a step has resolved. -/
theorem isSome_lookup_or_followsOwn (hOpen : IsOpen files)
    (hShares : ∀ index ∈ steps, ¬SharesReference files index) (hEnds : EndsAt files name number) :
    ((symbolTable (resolveSteps files steps)).lookup name).isSome = true ∨
      ∃ index ∈ steps, ∃ file ∈ files[index]?, file.FollowsOwn name := by
  obtain ⟨last, hChain, hLast⟩ := hEnds
  induction hChain using ReflTransGen.head_induction_on with
  | refl =>
    left
    have hWritten := mem_literals_iff.mpr hLast
    rw [← flatMap_literals_resolveSteps files steps] at hWritten
    obtain ⟨first, hFirst⟩ := Option.isSome_iff_exists.mp
      (List.lookup_isSome_iff.mpr ⟨_, hWritten, BEq.rfl⟩)
    exact Option.isSome_iff_exists.mpr ⟨first, SymbolTable.lookup_closure _ hFirst⟩
  | @head name symbol hRefers _ ih =>
    obtain ⟨index, file, hFile, hRefers⟩ := hRefers.exists_file
    have hLink := (mem_links_singleton hOpen (List.mem_of_getElem? hFile)).mpr hRefers
    rcases ih with hKnown | ⟨place, hPlace, other, hOther, hFollows⟩
    · -- the symbol is in the table: the reference is open, or a step has resolved it
      cases hOwn : (ownTable steps index file).lookup symbol with
      | none =>
        exact .inl (isSome_lookup_of_mem_links
          (mem_links_resolveSteps.mpr ⟨index, file, hFile, hLink, hOwn⟩) hKnown)
      | some found =>
        obtain ⟨hStep, hOwnEnds⟩ := exists_of_lookup_ownTable hOpen hFile hOwn
        exact .inr ⟨index, hStep, file, hFile, symbol, found, hRefers, hOwnEnds⟩
    · -- a step has resolved the symbol, so the reference stands in the same file
      obtain ⟨rfl, found, hFound⟩ :=
        endsAt_of_followsOwn hShares hFile hRefers hPlace hOther hFollows
      exact .inr ⟨index, hPlace, file, hFile, symbol, found, hRefers, hFound⟩

/-- Where no step resolves a reference that another file refers to, the steps do no harm. -/
theorem resolveEnums_resolveSteps_eq (hOpen : IsOpen files)
    (hNames : ((entriesOf files).map Prod.fst).Nodup)
    (hShares : ∀ index ∈ steps, ¬SharesReference files index) :
    resolveEnums (resolveSteps files steps) = resolveEnums files := by
  rw [resolveEnums_resolveSteps, resolveEnums]
  refine List.ext_getElem? fun index => ?_
  rw [List.getElem?_mapIdx, List.getElem?_map]
  cases hFile : files[index]? with
  | none => rfl
  | some file =>
    refine congrArg some (File.fill_congr ?_)
    rintro ⟨name, symbol⟩ hLink
    have hRefers := (mem_links_singleton hOpen (List.mem_of_getElem? hFile)).mp hLink
    have hFound : ∀ number, EndsAt files symbol number →
        ((ownTable steps index file ++ symbolTable (resolveSteps files steps)).lookup
          symbol).isSome = true := by
      intro number hEnds
      rw [SymbolTable.lookup_append, Option.isSome_or, Bool.or_eq_true]
      rcases isSome_lookup_or_followsOwn hOpen hShares hEnds with
        hKnown | ⟨place, hPlace, other, hOther, hFollows⟩
      · exact .inr hKnown
      · obtain ⟨rfl, found, hFound⟩ :=
          endsAt_of_followsOwn hShares hFile hRefers hPlace hOther hFollows
        exact .inl (isSome_lookup_ownTable hOpen hFile hPlace hFound)
    refine Option.ext fun number => ?_
    rw [lookup_symbolTable_eq_some_iff hOpen hNames]
    constructor
    · exact endsAt_of_lookup_append hOpen hFile
    · intro hEnds
      obtain ⟨other, hOther⟩ := Option.isSome_iff_exists.mp (hFound number hEnds)
      rw [hOther, (endsAt_of_lookup_append hOpen hFile hOther).unique hNames hEnds]

/-- A reference that a step has resolved is not in the table after the steps. -/
theorem lookup_resolveSteps_eq_none (hOpen : IsOpen files)
    (hNames : ((entriesOf files).map Prod.fst).Nodup) {index : Nat} (hStep : index ∈ steps)
    (hFile : file ∈ files[index]?) (hFollows : file.FollowsOwn name) :
    (symbolTable (resolveSteps files steps)).lookup name = none := by
  obtain ⟨symbol, number, ⟨resolved, hEntry⟩, hEnds⟩ := hFollows
  rw [entriesOf_singleton] at hEntry
  have hHere := entries_subset_entriesOf (List.mem_of_getElem? hFile) hEntry
  rw [Option.eq_none_iff_forall_ne_some]
  intro found hFound
  obtain ⟨last, hChain, hLast⟩ := SymbolTable.exists_chain_of_lookup_closure hFound
  rcases hChain.cases_head with rfl | ⟨next, hLink, -⟩
  · -- the name is not that of a number
    rw [flatMap_literals_resolveSteps] at hLast
    obtain ⟨front, back, hLiterals, -⟩ := List.lookup_eq_some_iff.mp hLast
    have hWritten : (name, .literal found) ∈ entriesOf files :=
      mem_literals_iff.mp (hLiterals ▸ List.mem_append_right _ List.mem_cons_self)
    cases source_unique hNames hHere hWritten
  · -- nor that of a reference that is open
    obtain ⟨there, holder, hHolder, hLink, hNone⟩ := mem_links_resolveSteps.mp hLink
    have hHolderMem := List.mem_of_getElem? hHolder
    obtain ⟨again, hAgain⟩ := (mem_links_singleton hOpen hHolderMem).mp hLink
    rw [entriesOf_singleton] at hAgain
    obtain rfl := index_eq_of_mem_entries hNames hHolder hFile hAgain hEntry
    obtain rfl : file = holder := Option.mem_unique hFile hHolder
    cases source_unique hNames hHere (entries_subset_entriesOf hHolderMem hAgain)
    have hKnown := isSome_lookup_ownTable hOpen hFile hStep hEnds
    rw [hNone] at hKnown
    cases hKnown

/-- What another file refers to is lost by a step that resolves it. -/
theorem openReferences_resolveSteps_ne (hOpen : IsOpen files)
    (hNames : ((entriesOf files).map Prod.fst).Nodup) {index : Nat} (hStep : index ∈ steps)
    (hShares : SharesReference files index) :
    openReferences (resolveEnums (resolveSteps files steps)) ≠
      openReferences (resolveEnums files) := by
  obtain ⟨file, hFile, name, hFollows, place, hPlace, other, hOther, user, hUser⟩ := hShares
  have hAfter := lookup_resolveSteps_eq_none hOpen hNames hStep hFile hFollows
  obtain ⟨symbol, number, hRefers, hEnds⟩ := hFollows
  have hReferred : EndsAt files name number :=
    (EndsAt.head hRefers hEnds).of_mem (List.mem_of_getElem? hFile)
  -- the name stands in this file and in no other one, so the reference to it stays open
  have hOwn : (ownTable steps place other).lookup name = none := by
    rw [Option.eq_none_iff_forall_ne_some]
    intro found hFound
    obtain ⟨source, hSource⟩ := (exists_of_lookup_ownTable hOpen hOther hFound).2.exists_mem
    obtain ⟨resolved, hEntry⟩ := hRefers
    rw [entriesOf_singleton] at hEntry
    exact hPlace (index_eq_of_mem_entries hNames hOther hFile hSource hEntry)
  have hUserLink : (user, name) ∈ (resolveSteps files steps).flatMap File.links :=
    mem_links_resolveSteps.mpr ⟨place, other, hOther,
      (mem_links_singleton hOpen (List.mem_of_getElem? hOther)).mpr hUser, hOwn⟩
  intro hSame
  have hLost := mem_symbols_openReferences_iff.mpr ⟨⟨user, hUserLink⟩, hAfter⟩
  rw [hSame] at hLost
  have hKnown := (lookup_symbolTable_eq_some_iff hOpen hNames).mpr hReferred
  rw [(mem_symbols_openReferences_iff.mp hLost).2] at hKnown
  cases hKnown

/-! ## Parsed files -/

/-- No reference of a parsed file is resolved. -/
theorem isOpen_of_parse {ink : Ink} {filename : String} {source : Text}
    (h : parse ink filename source = .ok file) : IsOpen [file] := by
  rw [IsOpen, entriesOf_singleton]
  intro entry hEntry symbol number hResolved
  rcases List.mem_append.mp hEntry with hConstant | hEnums
  · obtain ⟨constant, -, rfl⟩ := List.mem_map.mp hConstant
    cases hResolved
  · obtain ⟨declared, hDeclared, hValues⟩ := List.mem_flatMap.mp hEnums
    obtain ⟨value, hValue, rfl⟩ := List.mem_map.mp hValues
    obtain ⟨definition, hDefinition, hEnum⟩ := List.mem_filterMap.mp hDeclared
    obtain rfl : definition = .enum declared := by cases definition <;> cases hEnum; rfl
    cases wellFormed_of_mem_definitions h hDefinition with
    | enum _ hWellFormed =>
      have hSource : value.source.WellFormed := (hWellFormed value hValue).source
      rw [show value.source = .reference symbol (some number) from hResolved] at hSource
      cases hSource.2

/-! ## Agreement -/

/-- Some steps of single files, and all files resolved behind them, give what resolving all files at
once gives, if and only if no file that takes a step has a reference that it can follow on its own
and that another file refers to.  The same decides whether the same references are reported.
Whatever the steps are, nothing but references changes, and each number that is found is the one at
the end of the chain. -/
theorem resolveSteps_agree_iff (files : List File) (steps : List Nat) (hOpen : IsOpen files)
    (hNames : ((entriesOf files).map Prod.fst).Nodup) :
    (resolveEnums (resolveSteps files steps) = resolveEnums files ↔
      ∀ index ∈ steps, ¬SharesReference files index) ∧
    (openReferences (resolveEnums (resolveSteps files steps)) =
        openReferences (resolveEnums files) ↔
      ∀ index ∈ steps, ¬SharesReference files index) ∧
    List.Forall₂ (fun old new => ∃ numbers : String → Option Int, old.Filled numbers new ∧
      ∀ symbol number, numbers symbol = some number → EndsAt files symbol number)
      files (resolveEnums (resolveSteps files steps)) := by
  have hAgree (hShares : ∀ index ∈ steps, ¬SharesReference files index) :=
    resolveEnums_resolveSteps_eq hOpen hNames hShares
  have hUnshared (hSame : openReferences (resolveEnums (resolveSteps files steps)) =
      openReferences (resolveEnums files)) : ∀ index ∈ steps, ¬SharesReference files index :=
    fun _ hStep hShares => openReferences_resolveSteps_ne hOpen hNames hStep hShares hSame
  refine ⟨⟨fun hSame => hUnshared (congrArg openReferences hSame), hAgree⟩,
    ⟨hUnshared, fun hShares => congrArg openReferences (hAgree hShares)⟩,
    forall₂_resolveSteps hOpen steps⟩

/-- The files that are parsed from sources. -/
def parsedFiles (sources : List (String × String)) : List File :=
  sources.filterMap fun (name, source) => (parse .plain name source.toList).toOption

theorem exists_of_mem_parsedFiles {sources : List (String × String)}
    (h : file ∈ parsedFiles sources) :
    ∃ filename source, parse .plain filename source = .ok file := by
  obtain ⟨⟨filename, source⟩, -, hFile⟩ := List.mem_filterMap.mp h
  exact ⟨filename, source.toList, eq_ok_of_mem_toOption hFile⟩

theorem isOpen_parsedFiles (sources : List (String × String)) : IsOpen (parsedFiles sources) := by
  intro entry hEntry
  obtain ⟨file, hFile, hEntry⟩ := List.mem_flatMap.mp hEntry
  obtain ⟨filename, source, hParse⟩ := exists_of_mem_parsedFiles hFile
  exact isOpen_of_parse hParse entry ((entriesOf_singleton file).symm ▸ hEntry)

/-- Two files whose chains lead to and fro between them, but not through a reference that one of
them can follow on its own. -/
def crossingFiles : List File :=
  parsedFiles [("a.x", "enum A \x7b X = 5, Y = X, V = Z \x7d;"),
    ("b.x", "enum B \x7b Z = W, W = X \x7d;")]

theorem resolveSteps_agree_crossing : IsOpen crossingFiles ∧
    ((entriesOf crossingFiles).map Prod.fst).Nodup ∧
    resolveEnums (resolveSteps crossingFiles [0, 1, 0]) = resolveEnums crossingFiles ∧
    ∀ index ∈ [0, 1, 0], ¬SharesReference crossingFiles index := by
  have hOpen : IsOpen crossingFiles := isOpen_parsedFiles _
  have hNames : ((entriesOf crossingFiles).map Prod.fst).Nodup := by decide +kernel
  have hReported : openReferences (resolveEnums (resolveSteps crossingFiles [0, 1, 0])) =
      openReferences (resolveEnums crossingFiles) := by decide +kernel
  obtain ⟨hFiles, hReferences, -⟩ := resolveSteps_agree_iff crossingFiles [0, 1, 0] hOpen hNames
  have hShares := hReferences.mp hReported
  exact ⟨hOpen, hNames, hFiles.mpr hShares, hShares⟩

/-- Two files of which the second refers to a reference that the first can follow on its own. -/
def sharingFiles : List File :=
  parsedFiles [("a.x", "enum A \x7b X = 5, Y = X \x7d;\n"), ("b.x", "enum B \x7b Z = Y \x7d;\n")]

/-- What is found at once is not found behind a step of the first file. -/
theorem shared_reference_lost :
    (∀ file ∈ sharingFiles, ∃ filename source, parse .plain filename source = .ok file) ∧
    ((entriesOf sharingFiles).map Prod.fst).Nodup ∧
    openReferences (resolveEnums sharingFiles) = [] ∧
    openReferences (resolveEnums (resolveSteps sharingFiles [0])) =
      [⟨"b.x", "B", "Z", "Y", 1⟩] ∧
    resolveEnums (resolveSteps sharingFiles [0]) ≠ resolveEnums sharingFiles := by
  have hOnce : openReferences (resolveEnums sharingFiles) = [] := by decide +kernel
  have hSteps : openReferences (resolveEnums (resolveSteps sharingFiles [0])) =
      [⟨"b.x", "B", "Z", "Y", 1⟩] := by decide +kernel
  refine ⟨fun file hFile => exists_of_mem_parsedFiles hFile, by decide +kernel, hOnce, hSteps, ?_⟩
  intro hSame
  rw [hSame, hOnce] at hSteps
  cases hSteps

end XdrBindings.Idl
