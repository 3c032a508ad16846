import Mathlib.Data.Finset.Insert
import Mathlib.Data.Finset.Filter
import Mathlib.Data.Finset.Card
import XdrBindings.Graph.Basic

/-!
# Graphs built by operations

A graph is built from the empty one by adding nodes and edges and by taking nodes away.  What it
then holds can be told from the operations with two plain sets, one of nodes and one of edges, that
nothing ties together: a new edge puts its ends among the nodes, an edge from a node to itself is no
edge, and nodes are taken away with the edges that touch them.  All that can be asked of the graph
is answered from the two sets.

The plain sets do not ask that the ends of edges are nodes.  That they are is what every operation
keeps, also where nodes are taken away and come back.

## Main results

* `Sets.IsClosed.apply`, `Sets.isClosed_build` — operations keep the ends of edges among the nodes.
* `toSets_apply`, `toSets_build` — operations do to a graph what they do to plain sets.
* `perm_rowEdges` — the rows of a graph hold each of its edges once.
* `build_follows_sets` — the invariants and the queries of a graph that operations have built.
-/

namespace XdrBindings.Graph

/-! ## Operations -/

/-- What can be done to a graph. -/
inductive Operation
  | addNode (node : String)
  | addEdge (source target : String)
  | without (removed : List String)

/-- The graph behind an operation. -/
def apply (g : Graph) : Operation → Graph
  | .addNode node => g.addNode node
  | .addEdge source target => g.addEdge source target
  | .without removed => g.without removed

/-- The graph that a sequence of operations makes of the empty one. -/
def build (operations : List Operation) : Graph := operations.foldl apply empty

/-! ## Plain sets -/

/-- A set of nodes and a set of edges. -/
@[ext] structure Sets where
  nodes : Finset String
  edges : Finset (String × String)

namespace Sets

/-- The sets without anything. -/
def empty : Sets := ⟨∅, ∅⟩

/-- The sets behind an operation. -/
def apply (sets : Sets) : Operation → Sets
  | .addNode node => ⟨insert node sets.nodes, sets.edges⟩
  | .addEdge source target =>
    ⟨insert source (insert target sets.nodes),
      if source = target then sets.edges else insert (source, target) sets.edges⟩
  | .without removed =>
    ⟨sets.nodes.filter (· ∉ removed),
      sets.edges.filter fun edge => edge.1 ∉ removed ∧ edge.2 ∉ removed⟩

/-- The sets that a sequence of operations makes of the empty ones. -/
def build (operations : List Operation) : Sets := operations.foldl apply empty

/-- Whether the ends of edges are nodes, and two of them. -/
structure IsClosed (sets : Sets) : Prop where
  source : ∀ edge ∈ sets.edges, edge.1 ∈ sets.nodes
  target : ∀ edge ∈ sets.edges, edge.2 ∈ sets.nodes
  ne : ∀ edge ∈ sets.edges, edge.1 ≠ edge.2

theorem isClosed_empty : empty.IsClosed where
  source _ hEdge := absurd hEdge (Finset.notMem_empty _)
  target _ hEdge := absurd hEdge (Finset.notMem_empty _)
  ne _ hEdge := absurd hEdge (Finset.notMem_empty _)

/-- An edge behind a new one is the new one, which is no loop, or an old one. -/
theorem mem_edges_addEdge {sets : Sets} {source target : String} {edge : String × String} :
    edge ∈ (sets.apply (.addEdge source target)).edges ↔
      (source ≠ target ∧ edge = (source, target)) ∨ edge ∈ sets.edges := by
  by_cases hLoop : source = target
  · simp [apply, hLoop]
  · simp [apply, hLoop]

/-- Every operation keeps the ends of edges among the nodes. -/
theorem IsClosed.apply {sets : Sets} (h : sets.IsClosed) (operation : Operation) :
    (sets.apply operation).IsClosed := by
  cases operation with
  | addNode node =>
    exact ⟨fun edge hEdge => Finset.mem_insert_of_mem (h.source edge hEdge),
      fun edge hEdge => Finset.mem_insert_of_mem (h.target edge hEdge), h.ne⟩
  | addEdge source target =>
    have hGrown {node : String} (hNode : node ∈ sets.nodes) :
        node ∈ (sets.apply (.addEdge source target)).nodes :=
      Finset.mem_insert_of_mem (Finset.mem_insert_of_mem hNode)
    refine ⟨fun edge hEdge => ?_, fun edge hEdge => ?_, fun edge hEdge => ?_⟩
    · rcases mem_edges_addEdge.mp hEdge with ⟨-, rfl⟩ | hOld
      · exact Finset.mem_insert_self _ _
      · exact hGrown (h.source edge hOld)
    · rcases mem_edges_addEdge.mp hEdge with ⟨-, rfl⟩ | hOld
      · exact Finset.mem_insert_of_mem (Finset.mem_insert_self _ _)
      · exact hGrown (h.target edge hOld)
    · rcases mem_edges_addEdge.mp hEdge with ⟨hNe, rfl⟩ | hOld
      · exact hNe
      · exact h.ne edge hOld
  | without removed =>
    -- an edge is kept where both of its ends are
    have hKept {edge : String × String} (hEdge : edge ∈ (sets.apply (.without removed)).edges) :
        edge ∈ sets.edges ∧ edge.1 ∉ removed ∧ edge.2 ∉ removed := Finset.mem_filter.mp hEdge
    refine ⟨fun edge hEdge => ?_, fun edge hEdge => ?_, fun edge hEdge => ?_⟩
    · obtain ⟨hOld, hSource, -⟩ := hKept hEdge
      exact Finset.mem_filter.mpr ⟨h.source edge hOld, hSource⟩
    · obtain ⟨hOld, -, hTarget⟩ := hKept hEdge
      exact Finset.mem_filter.mpr ⟨h.target edge hOld, hTarget⟩
    · exact h.ne edge (hKept hEdge).1

/-- So the ends of edges are nodes whatever the operations are. -/
theorem isClosed_build (operations : List Operation) : (build operations).IsClosed := by
  have hRun (sets : Sets) (h : sets.IsClosed) : (operations.foldl Sets.apply sets).IsClosed := by
    induction operations generalizing sets with
    | nil => exact h
    | cons operation rest ih => exact ih _ (h.apply operation)
  exact hRun empty isClosed_empty

end Sets

/-! ## The sets of a graph -/

variable {g : Graph}

/-- The nodes and the edges of a graph. -/
def toSets (g : Graph) : Sets := ⟨g.nodes.toList.toFinset, g.edges.toFinset⟩

@[simp] theorem mem_toSets_nodes {node : String} : node ∈ g.toSets.nodes ↔ node ∈ g.nodes :=
  List.mem_toFinset

@[simp] theorem mem_toSets_edges {edge : String × String} :
    edge ∈ g.toSets.edges ↔ edge ∈ g.edges := List.mem_toFinset

theorem toSets_empty : empty.toSets = Sets.empty := rfl

/-- An operation does to the sets of a graph what it does to plain sets. -/
theorem toSets_apply (g : Graph) (operation : Operation) :
    (g.apply operation).toSets = g.toSets.apply operation := by
  cases operation with
  | addNode node =>
    ext other
    · simp [apply, Sets.apply]
    · simp [apply, Sets.apply]
  | addEdge source target =>
    ext other
    · simp [apply, Sets.apply]
    · rw [Sets.mem_edges_addEdge, mem_toSets_edges, mem_toSets_edges]
      exact mem_edges_addEdge
  | without removed =>
    ext other
    · simp [apply, Sets.apply]
    · obtain ⟨source, target⟩ := other
      simp [apply, Sets.apply]

/-- Whatever the operations are, the graph has the nodes and the edges of the plain sets. -/
theorem toSets_build (operations : List Operation) :
    (build operations).toSets = Sets.build operations := by
  have hRun : operations.foldl Sets.apply empty.toSets = (operations.foldl apply empty).toSets :=
    List.foldl_hom toSets fun g operation => (toSets_apply g operation).symm
  rw [build, Sets.build, ← hRun, toSets_empty]

/-! ## Queries -/

theorem contains_eq (node : String) : g.contains node = decide (node ∈ g.toSets.nodes) := by
  rw [Bool.eq_iff_iff]
  simp [contains]

theorem hasEdge_eq (source target : String) :
    g.hasEdge source target = decide ((source, target) ∈ g.toSets.edges) := by
  rw [Bool.eq_iff_iff]
  simp

theorem nodeCount_eq : g.nodeCount = g.toSets.nodes.card :=
  (List.toFinset_card_of_nodup g.nodes.toList_nodup).symm

theorem edgeCount_eq : g.edgeCount = g.toSets.edges.card :=
  (List.toFinset_card_of_nodup g.edges_nodup).symm

/-- The edges as they stand in the rows of a graph, which are its nodes with their dependencies. -/
def rowEdges (g : Graph) : List (String × String) :=
  g.dump.flatMap fun row => row.2.toList.map (Prod.mk row.1)

theorem mem_rowEdges {edge : String × String} : edge ∈ g.rowEdges ↔ edge ∈ g.edges := by
  obtain ⟨source, target⟩ := edge
  simp only [rowEdges, dump, List.mem_flatMap, List.mem_map, Prod.mk.injEq]
  constructor
  · rintro ⟨_, ⟨node, -, rfl⟩, other, hOther, rfl, rfl⟩
    exact mem_dependencies.mp hOther
  · intro hEdge
    exact ⟨_, ⟨source, (g.closed hEdge).1, rfl⟩, target, mem_dependencies.mpr hEdge, rfl, rfl⟩

/-- The rows of a graph hold each of its edges once. -/
theorem perm_rowEdges : g.rowEdges.Perm g.edges := by
  refine (List.perm_ext_iff_of_nodup ?_ g.edges_nodup).mpr fun _ => mem_rowEdges
  rw [rowEdges, dump, List.flatMap_map]
  refine List.nodup_flatMap.mpr ⟨fun node _ => ?_, g.nodes.toList_nodup.imp fun hNe => ?_⟩
  · exact (g.dependencies node).toList_nodup.map fun _ _ hPair => (Prod.mk.inj hPair).2
  · -- edges of two rows begin at different nodes
    intro edge hFirst hSecond
    obtain ⟨_, -, rfl⟩ := List.mem_map.mp hFirst
    obtain ⟨_, -, hPair⟩ := List.mem_map.mp hSecond
    exact hNe (Prod.mk.inj hPair).1.symm

/-! ## Any sequence of operations -/

/-- A graph that operations have built has only nodes at the ends of its edges, and no edge from a
node to itself.  Its nodes, its edges, the dependencies of each node in strictly ascending order and
the numbers of both are those that the same operations give plain sets, and the edges can be counted
row by row. -/
theorem build_follows_sets (operations : List Operation) :
    let g := build operations
    let sets := Sets.build operations
    (∀ source target, g.hasEdge source target = true →
      g.contains source = true ∧ g.contains target = true) ∧
    (∀ node, g.hasEdge node node = false) ∧
    (∀ node, g.contains node = decide (node ∈ sets.nodes)) ∧
    (∀ source target, g.hasEdge source target = decide ((source, target) ∈ sets.edges)) ∧
    (∀ source, (g.dependencies source).toList.Pairwise (· < ·) ∧
      ∀ target, target ∈ (g.dependencies source).toList ↔ (source, target) ∈ sets.edges) ∧
    g.nodeCount = sets.nodes.card ∧
    g.edgeCount = sets.edges.card ∧
    g.edgeCount = (g.dump.flatMap fun row => row.2.toList).length := by
  intro g sets
  have hSets : g.toSets = sets := toSets_build operations
  have hClosed : sets.IsClosed := Sets.isClosed_build operations
  rw [← hSets] at hClosed ⊢
  refine ⟨fun source target hEdge => ?_, fun node => ?_, contains_eq, hasEdge_eq,
    fun source => ⟨(g.dependencies source).ascending, fun target => ?_⟩, nodeCount_eq,
    edgeCount_eq, ?_⟩
  · have hMem := mem_toSets_edges.mpr (hasEdge_iff.mp hEdge)
    rw [contains_eq, contains_eq]
    exact ⟨decide_eq_true (hClosed.source _ hMem), decide_eq_true (hClosed.target _ hMem)⟩
  · rw [hasEdge_eq]
    exact decide_eq_false fun hMem => hClosed.ne _ hMem rfl
  · rw [← NameSet.mem_def, mem_dependencies, mem_toSets_edges]
  · rw [edgeCount, ← perm_rowEdges.length_eq, rowEdges]
    simp

end XdrBindings.Graph
