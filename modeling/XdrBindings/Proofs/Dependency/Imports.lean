import Mathlib.Data.List.Sort
import XdrBindings.Dependency.Basic

/-!
# Imports follow from references

What a file imports is computed through the graph of files, edge by edge.  Here it is said without a
graph: `Definition.RefersTo` gives the type names that a definition is written with, and a file
needs another one where a class in the first refers to a class in the second.

An import set is an ascending list of names, so it is determined by what it contains, and what it
contains only depends on which definitions there are.

## Main results

* `mem_classReferences` — the edges between classes are the references to other classes.
* `Dependencies.mem_files_edges` — the edges between files are the needs of different files.
* `Dependencies.importSet_exact` — an import set holds what the file needs and the baseline, without
  the file itself, whatever the order of the definitions.
-/

namespace XdrBindings

open Idl

/-! ## References -/

namespace Idl

/-- Whether a type is built into the language, by its recorded name or by its words. -/
def IsPrimitive (name : String) : Prop :=
  ∃ primitive : Primitive, name = primitive.name ∨ name = primitive.spelling

theorem ofName?_eq_none_iff {name : String} :
    Primitive.ofName? name = none ↔ ¬IsPrimitive name := by
  have hAll (primitive : Primitive) : primitive ∈ Primitive.all := by cases primitive <;> decide
  simp only [Primitive.ofName?, List.find?_eq_none, hAll, true_implies, Bool.or_eq_true, beq_iff_eq,
    IsPrimitive, not_exists, @eq_comm _ name]

/-- A type that is switched on is built in or has a name of its own. -/
theorem SwitchType.isPrimitive_or (type : SwitchType) :
    IsPrimitive type.name ∨ ∃ name, type = .named name := by
  cases type with
  | int => exact .inl ⟨.int32, .inr rfl⟩
  | unsignedInt => exact .inl ⟨.uint32, .inr rfl⟩
  | bool => exact .inl ⟨.bool, .inl rfl⟩
  | named name => exact .inr ⟨name, rfl⟩

namespace Definition

/-- `Mentions definition name` says that `name` is the type of a field, the type that a union
switches on or the type that an alias stands for. -/
inductive Mentions : Definition → String → Prop
  | underlying (declared : Typedef) : Mentions (.typedef declared) declared.underlying
  | field {declared : Struct} {field : Field} (hField : field ∈ declared.fields) :
      Mentions (.struct declared) field.type.name
  | switch (declared : Union) : Mentions (.union declared) declared.discriminant.type.name
  | arm {declared : Union} {arm : Arm} {content : Field} (hArm : arm ∈ declared.arms)
      (hContent : arm.content = some content) : Mentions (.union declared) content.type.name

/-- Whether a definition refers to a type that is neither built in nor itself. -/
structure RefersTo (definition : Definition) (name : String) : Prop where
  mentions : definition.Mentions name
  not_isPrimitive : ¬IsPrimitive name
  ne : name ≠ definition.name

theorem mem_mentioned_iff {definition : Definition} {name : String} (hName : ¬IsPrimitive name) :
    name ∈ definition.mentioned ↔ definition.Mentions name := by
  cases definition with
  | constant declared => exact ⟨nofun, nofun⟩
  | enum declared => exact ⟨nofun, nofun⟩
  | typedef declared =>
    simp only [mentioned, List.mem_singleton]
    exact ⟨fun h => h ▸ .underlying declared, fun h => by cases h; rfl⟩
  | struct declared =>
    simp only [mentioned, List.mem_map]
    constructor
    · rintro ⟨field, hField, rfl⟩
      exact .field hField
    · intro h
      cases h with
      | field hField => exact ⟨_, hField, rfl⟩
  | union declared =>
    rw [mentioned, List.mem_append]
    constructor
    · rintro (hSwitch | hArms)
      · split at hSwitch
        · rename_i other hType
          obtain rfl := List.mem_singleton.mp hSwitch
          have hMentions := Mentions.switch declared
          rwa [hType] at hMentions
        · cases hSwitch
      · obtain ⟨arm, hArm, hType⟩ := List.mem_filterMap.mp hArms
        obtain ⟨content, hContent, rfl⟩ := Option.map_eq_some_iff.mp hType
        exact .arm hArm hContent
    · intro h
      cases h with
      | switch =>
        obtain ⟨other, hType⟩ := declared.discriminant.type.isPrimitive_or.resolve_left hName
        rw [hType]
        exact .inl (List.mem_singleton.mpr rfl)
      | arm hArm hContent =>
        exact .inr (List.mem_filterMap.mpr ⟨_, hArm, Option.map_eq_some_iff.mpr ⟨_, hContent, rfl⟩⟩)

theorem mem_referencedTypes_iff {definition : Definition} {name : String} :
    name ∈ definition.referencedTypes ↔ definition.RefersTo name := by
  rw [mem_referencedTypes, ofName?_eq_none_iff]
  constructor
  · rintro ⟨hMentioned, hNe, hName⟩
    exact ⟨(mem_mentioned_iff hName).mp hMentioned, hName, hNe⟩
  · rintro ⟨hMentions, hName, hNe⟩
    exact ⟨(mem_mentioned_iff hName).mpr hMentions, hNe, hName⟩

end Definition

end Idl

/-- The definitions of some files, one file behind the other. -/
def allDefinitions (files : List File) : List Definition := files.flatMap File.definitions

/-- Whether a type of one class refers to a type of another one. -/
def ClassRefers (naming : Naming) (definitions : List Definition) (source target : String) : Prop :=
  ∃ definition ∈ definitions, ∃ name, definition.RefersTo name ∧
    naming.className definition.name = source ∧ naming.className name = target

theorem mem_classReferences {naming : Naming} {files : List File} {source target : String} :
    (source, target) ∈ classReferences naming files ↔
      source ≠ target ∧ ClassRefers naming (allDefinitions files) source target := by
  simp only [classReferences, ClassRefers, allDefinitions, List.mem_flatMap, List.mem_filter,
    List.mem_map, Prod.mk.injEq, ← NameSet.mem_def, Definition.mem_referencedTypes_iff, bne_iff_ne]
  constructor
  · rintro ⟨file, hFile, definition, hDefinition, ⟨name, hRefers, hSource, hTarget⟩, hNe⟩
    exact ⟨hNe, definition, ⟨file, hFile, hDefinition⟩, name, hRefers, hSource, hTarget⟩
  · rintro ⟨hNe, definition, ⟨file, hFile, hDefinition⟩, name, hRefers, hSource, hTarget⟩
    exact ⟨file, hFile, definition, hDefinition, ⟨name, hRefers, hSource, hTarget⟩, hNe⟩

/-! ## Graphs from lists -/

namespace Graph

variable {g : Graph} {edge : String × String}

theorem mem_edges_addNodes {nodes : List String} :
    edge ∈ (g.addNodes nodes).edges ↔ edge ∈ g.edges := by
  unfold addNodes
  induction nodes generalizing g with
  | nil => rfl
  | cons node rest ih => rw [List.foldl_cons, ih, mem_edges_addNode]

theorem mem_edges_addEdges {edges : List (String × String)} :
    edge ∈ (g.addEdges edges).edges ↔ (edge ∈ edges ∧ edge.1 ≠ edge.2) ∨ edge ∈ g.edges := by
  unfold addEdges
  induction edges generalizing g with
  | nil => simp
  | cons first rest ih =>
    rw [List.foldl_cons, ih, mem_edges_addEdge, List.mem_cons]
    constructor
    · rintro (⟨hRest, hNe⟩ | ⟨hNe, rfl⟩ | hOld)
      · exact .inl ⟨.inr hRest, hNe⟩
      · exact .inl ⟨.inl rfl, hNe⟩
      · exact .inr hOld
    · rintro (⟨rfl | hRest, hNe⟩ | hOld)
      · exact .inr (.inl ⟨hNe, rfl⟩)
      · exact .inl ⟨hRest, hNe⟩
      · exact .inr (.inr hOld)

end Graph

theorem NameSet.eq_of_mem_iff {names others : NameSet} (h : ∀ name, name ∈ names ↔ name ∈ others) :
    names = others := by
  have hList : names.toList = others.toList :=
    names.ascending.eq_of_mem_iff others.ascending fun {name} => h name
  cases names
  cases others
  cases hList
  rfl

/-! ## Imports -/

/-- Whether a class in one file refers to a class of another name in the other file. -/
def Needs (naming : Naming) (assignment : String → Option String) (definitions : List Definition)
    (file other : String) : Prop :=
  ∃ definition ∈ definitions, ∃ name, definition.RefersTo name ∧
    naming.className definition.name ≠ naming.className name ∧
      assignment (naming.className definition.name) = some file ∧
        assignment (naming.className name) = some other

namespace Dependencies

variable {naming : Naming} {baseline : String} {assignment : String → Option String}
  {files : List File}

theorem mem_files_edges {file other : String} :
    (file, other) ∈ (ofFiles naming baseline assignment files).files.edges ↔
      Needs naming assignment (allDefinitions files) file other ∧ file ≠ other := by
  have hNone : (file, other) ∉ Graph.empty.edges := nofun
  simp only [ofFiles, Graph.mem_edges_addEdges, Graph.mem_edges_addNodes, hNone, or_false]
  refine and_congr_left fun _ => ?_
  rw [List.mem_filterMap]
  constructor
  · rintro ⟨⟨source, target⟩, hReference, hFiles⟩
    obtain ⟨hNe, definition, hDefinition, name, hRefers, rfl, rfl⟩ :=
      mem_classReferences.mp hReference
    dsimp only at hFiles
    split at hFiles
    · rename_i hSource hTarget
      obtain ⟨rfl, rfl⟩ := Prod.mk.inj (Option.some.inj hFiles)
      exact ⟨definition, hDefinition, name, hRefers, hNe, hSource, hTarget⟩
    · cases hFiles
  · rintro ⟨definition, hDefinition, name, hRefers, hNe, hSource, hTarget⟩
    refine ⟨_, mem_classReferences.mpr ⟨hNe, definition, hDefinition, name, hRefers, rfl, rfl⟩, ?_⟩
    dsimp only
    rw [hSource, hTarget]

/-- The import set of a file lists in ascending order, each once, the files that it needs and the
baseline, but not itself.  Other files with the same definitions in any order give the same set. -/
theorem importSet_exact (naming : Naming) (baseline : String) (assignment : String → Option String)
    (files : List File) (file : String) :
    ((ofFiles naming baseline assignment files).importSet file).toList.Pairwise (· < ·) ∧
    (∀ other, other ∈ ((ofFiles naming baseline assignment files).importSet file).toList ↔
      (Needs naming assignment (allDefinitions files) file other ∨ other = baseline) ∧
        other ≠ file) ∧
    ∀ others, (allDefinitions others).Perm (allDefinitions files) →
      (ofFiles naming baseline assignment others).importSet file =
        (ofFiles naming baseline assignment files).importSet file := by
  have hMem (files : List File) (other : String) :
      other ∈ (ofFiles naming baseline assignment files).importSet file ↔
        (Needs naming assignment (allDefinitions files) file other ∨ other = baseline) ∧
          other ≠ file := by
    rw [mem_importSet, mem_files_edges]
    refine and_congr_left fun hNe => or_congr_left ?_
    exact and_iff_left hNe.symm
  refine ⟨NameSet.ascending _, hMem files,
    fun others hPerm => NameSet.eq_of_mem_iff fun other => ?_⟩
  simp only [hMem, Needs, hPerm.mem_iff]

end Dependencies

end XdrBindings
