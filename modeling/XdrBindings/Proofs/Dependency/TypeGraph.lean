import XdrBindings.Proofs.Dependency.Imports
import XdrBindings.Proofs.Graph.Order

/-!
# The graphs hold what is defined and what is referred to

The graphs of types and of files are built in two passes: the classes that are defined become nodes,
and then each reference from one class to another becomes an edge.  Here all that is kept on the way
is said without the passes.  A rule of naming may give several types one class, so a class is
defined if one of its types is, and it refers to another class if one of its types does.

A reference to a type of the same class leaves no edge.  Still its class is a node, since only types
that are defined refer to others.

## Main results

* `mem_types_nodes`, `mem_types_edges` — the nodes and the edges of the graph of types.
* `mem_unassigned`, `fileOf_eq_some_iff` — the classes without a file and those with one.
* `Dependencies.ofFiles_reflects` — all of these together, and the findings.
-/

namespace XdrBindings

open Idl

/-! ## Graphs from lists -/

namespace Graph

variable {g : Graph} {node : String}

theorem mem_nodes_addNodes {nodes : List String} :
    node ∈ (g.addNodes nodes).nodes ↔ node ∈ nodes ∨ node ∈ g.nodes := by
  unfold addNodes
  induction nodes generalizing g with
  | nil => simp
  | cons first rest ih =>
    rw [List.foldl_cons, ih, mem_nodes_addNode, List.mem_cons]
    exact or_left_comm.trans or_assoc.symm

theorem mem_nodes_addEdges {edges : List (String × String)} :
    node ∈ (g.addEdges edges).nodes ↔
      (∃ edge ∈ edges, node = edge.1 ∨ node = edge.2) ∨ node ∈ g.nodes := by
  unfold addEdges
  induction edges generalizing g with
  | nil => simp
  | cons first rest ih =>
    rw [List.foldl_cons, ih, mem_nodes_addEdge, List.exists_mem_cons_iff]
    constructor
    · rintro (hRest | rfl | rfl | hOld)
      · exact .inl (.inr hRest)
      · exact .inl (.inl (.inl rfl))
      · exact .inl (.inl (.inr rfl))
      · exact .inr hOld
    · rintro (((rfl | rfl) | hRest) | hOld)
      · exact .inr (.inl rfl)
      · exact .inr (.inr (.inl rfl))
      · exact .inl hRest
      · exact .inr (.inr (.inr hOld))

theorem not_mem_nodes_empty : node ∉ empty.nodes := List.not_mem_nil

end Graph

/-! ## Classes -/

/-- Whether a type of the class is defined. -/
def IsDefinedClass (naming : Naming) (definitions : List Definition) (type : String) : Prop :=
  ∃ definition ∈ definitions, definition.isType = true ∧ naming.className definition.name = type

variable {naming : Naming} {files : List File}

theorem mem_definedClasses {type : String} :
    type ∈ definedClasses naming files ↔ IsDefinedClass naming (allDefinitions files) type := by
  simp only [definedClasses, File.typeNames, IsDefinedClass, allDefinitions, List.mem_flatMap,
    List.mem_map, List.mem_filter]
  constructor
  · rintro ⟨file, hFile, name, ⟨definition, ⟨hDefinition, hType⟩, rfl⟩, hClass⟩
    exact ⟨definition, ⟨file, hFile, hDefinition⟩, hType, hClass⟩
  · rintro ⟨definition, ⟨file, hFile, hDefinition⟩, hType, hClass⟩
    exact ⟨file, hFile, _, ⟨definition, ⟨hDefinition, hType⟩, rfl⟩, hClass⟩

/-- Only types refer to others. -/
theorem Idl.Definition.RefersTo.isType {definition : Definition} {name : String}
    (h : definition.RefersTo name) : definition.isType = true := by
  cases h.mentions <;> rfl

theorem ClassRefers.isDefinedClass {definitions : List Definition} {source target : String}
    (h : ClassRefers naming definitions source target) :
    IsDefinedClass naming definitions source := by
  obtain ⟨definition, hDefinition, name, hRefers, hSource, -⟩ := h
  exact ⟨definition, hDefinition, hRefers.isType, hSource⟩

/-- The classes that are listed on the way: where a class refers to itself, it is defined. -/
theorem mem_listed_iff {type : String} :
    type ∈ definedClasses naming files ++ (classReferences naming files).map Prod.snd ↔
      IsDefinedClass naming (allDefinitions files) type ∨
        ∃ source, ClassRefers naming (allDefinitions files) source type := by
  rw [List.mem_append, mem_definedClasses, List.mem_map]
  constructor
  · rintro (hDefined | ⟨⟨source, target⟩, hReference, rfl⟩)
    · exact .inl hDefined
    · exact .inr ⟨source, (mem_classReferences.mp hReference).2⟩
  · rintro (hDefined | ⟨source, hRefers⟩)
    · exact .inl hDefined
    · by_cases hSame : source = type
      · subst hSame
        exact .inl hRefers.isDefinedClass
      · exact .inr ⟨_, mem_classReferences.mpr ⟨hSame, hRefers⟩, rfl⟩

/-! ## What is kept -/

namespace Dependencies

variable {baseline : String} {assignment : String → Option String}

theorem mem_types_nodes {type : String} :
    type ∈ (ofFiles naming baseline assignment files).types.nodes ↔
      IsDefinedClass naming (allDefinitions files) type ∨
        ∃ source, ClassRefers naming (allDefinitions files) source type := by
  rw [← mem_listed_iff, ofFiles, Graph.mem_nodes_addEdges, Graph.mem_nodes_addNodes,
    or_iff_left Graph.not_mem_nodes_empty, List.mem_append, List.mem_map]
  constructor
  · rintro (⟨⟨source, target⟩, hReference, rfl | rfl⟩ | hDefined)
    · exact .inl (mem_definedClasses.mpr (mem_classReferences.mp hReference).2.isDefinedClass)
    · exact .inr ⟨_, hReference, rfl⟩
    · exact .inl hDefined
  · rintro (hDefined | ⟨reference, hReference, rfl⟩)
    · exact .inr hDefined
    · exact .inl ⟨reference, hReference, .inr rfl⟩

theorem mem_types_edges {source target : String} :
    (source, target) ∈ (ofFiles naming baseline assignment files).types.edges ↔
      source ≠ target ∧ ClassRefers naming (allDefinitions files) source target := by
  have hNone : (source, target) ∉ Graph.empty.edges := List.not_mem_nil
  rw [ofFiles, Graph.mem_edges_addEdges, Graph.mem_edges_addNodes, or_iff_left hNone,
    mem_classReferences]
  exact and_iff_left_of_imp And.left

theorem mem_unassigned {type : String} :
    type ∈ (ofFiles naming baseline assignment files).unassigned ↔
      type ∈ (ofFiles naming baseline assignment files).types.nodes ∧ assignment type = none := by
  rw [mem_types_nodes, ← mem_listed_iff, ofFiles, NameSet.mem_ofList, List.mem_filter,
    Option.isNone_iff_eq_none]

theorem fileOf_eq_some_iff {type file : String} :
    (ofFiles naming baseline assignment files).fileOf type = some file ↔
      IsDefinedClass naming (allDefinitions files) type ∧ assignment type = some file := by
  rw [← mem_definedClasses, ofFiles]
  dsimp only
  split
  · rename_i hDefined
    exact (and_iff_right (List.contains_iff_mem.mp hDefined)).symm
  · rename_i hDefined
    constructor
    · intro hNone
      cases hNone
    · rintro ⟨hMem, -⟩
      exact absurd (List.contains_iff_mem.mpr hMem) hDefined

/-- The dependencies say what the definitions say: which classes there are and which of them refer
to each other, which files need each other, and where a class is.  The findings are the pairs of files
that need each other and then the classes without a file, each once and in ascending order. -/
structure Reflects (dependencies : Dependencies) (naming : Naming)
    (assignment : String → Option String) (definitions : List Definition) : Prop where
  mem_nodes : ∀ type, type ∈ dependencies.types.nodes ↔
    IsDefinedClass naming definitions type ∨ ∃ source, ClassRefers naming definitions source type
  mem_edges : ∀ source target, (source, target) ∈ dependencies.types.edges ↔
    source ≠ target ∧ ClassRefers naming definitions source target
  mem_fileEdges : ∀ file other, (file, other) ∈ dependencies.files.edges ↔
    Needs naming assignment definitions file other ∧ file ≠ other
  unassigned : ∀ type, type ∈ dependencies.unassigned ↔
    type ∈ dependencies.types.nodes ∧ assignment type = none
  fileOf : ∀ type file, dependencies.fileOf type = some file ↔
    IsDefinedClass naming definitions type ∧ assignment type = some file
  findings : ∃ (pairs : List (String × String)) (types : List String), dependencies.findings =
      pairs.map (fun pair => .circular pair.1 pair.2) ++ types.map .unassigned ∧
    dependencies.files.ListsMutual pairs ∧
    types.Pairwise (· < ·) ∧ ∀ type, type ∈ types ↔ type ∈ dependencies.unassigned

/-- Whatever the files, the naming and the assignment of classes to files. -/
theorem ofFiles_reflects (naming : Naming) (baseline : String)
    (assignment : String → Option String) (files : List File) :
    (ofFiles naming baseline assignment files).Reflects naming assignment
      (allDefinitions files) where
  mem_nodes _ := mem_types_nodes
  mem_edges _ _ := mem_types_edges
  mem_fileEdges _ _ := mem_files_edges
  unassigned _ := mem_unassigned
  fileOf _ _ := fileOf_eq_some_iff
  findings :=
    ⟨(ofFiles naming baseline assignment files).files.mutualPairs,
      (ofFiles naming baseline assignment files).unassigned.toList, rfl,
      Graph.listsMutual_mutualPairs, NameSet.ascending _, fun _ => Iff.rfl⟩

/-- Two types of one class refer to each other and to a third one, and only the last reference is an
edge. -/
example :
    let node (name : String) (types : List String) : Definition :=
      .struct ⟨name, types.map fun type => ⟨"field", .named type, .plain, 1⟩, 1⟩
    let files : List File := [⟨"a.x", none, [node "A" ["XdrA"], node "XdrA" ["A", "B"]]⟩]
    let dependencies := ofFiles .standard standardBaseline (fun _ => none) files
    dependencies.types.edges = [("XdrA", "XdrB")] ∧
      dependencies.findings = [.unassigned "XdrA", .unassigned "XdrB"] := by
  decide +kernel

end Dependencies

end XdrBindings
