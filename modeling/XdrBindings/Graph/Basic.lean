import XdrBindings.Names.NameSet

/-!
# Directed graphs on names

A graph has a set of nodes and a list of edges without repetitions. Both ends of an
edge are nodes, and no edge leads from a node to itself; these facts are part of the
type. Everything that is listed is listed in ascending order of names.

## Main statements

* `mem_nodes_addNode`, `mem_nodes_addEdge`, `mem_nodes_without`: the nodes after each
  operation.
* `mem_edges_addNode`, `mem_edges_addEdge`, `mem_edges_without`: the edges after each
  operation.
* `mem_dependencies`: the dependencies of a node are the ends of its edges.
-/

namespace XdrBindings

/-- A directed graph on names, without loops. -/
structure Graph where
  nodes : NameSet
  edges : List (String × String)
  edges_nodup : edges.Nodup
  closed : ∀ {a b : String}, (a, b) ∈ edges → a ∈ nodes ∧ b ∈ nodes
  loopless : ∀ {a b : String}, (a, b) ∈ edges → a ≠ b

namespace Graph

/-- The graph without nodes. -/
def empty : Graph := ⟨.empty, [], .nil, nofun, nofun⟩

/-! ## Building -/

/-- The graph with one more node. -/
def addNode (g : Graph) (node : String) : Graph where
  nodes := g.nodes.insert node
  edges := g.edges
  edges_nodup := g.edges_nodup
  closed h := by
    have := g.closed h
    exact ⟨NameSet.mem_insert.mpr (.inr this.1), NameSet.mem_insert.mpr (.inr this.2)⟩
  loopless := g.loopless

/-- The graph with one more edge, and its ends as nodes. An edge from a node to
itself is left out. -/
def addEdge (g : Graph) (source target : String) : Graph :=
  let grown := (g.addNode target).addNode source
  if h : source = target ∨ (source, target) ∈ g.edges then grown
  else
    { nodes := grown.nodes
      edges := (source, target) :: g.edges
      edges_nodup := List.nodup_cons.mpr ⟨fun hMem => h (.inr hMem), g.edges_nodup⟩
      closed := by
        intro a b hMem
        rcases List.mem_cons.mp hMem with hEq | hOld
        · obtain ⟨rfl, rfl⟩ := Prod.mk.inj hEq
          exact ⟨NameSet.mem_insert.mpr (.inl rfl),
            NameSet.mem_insert.mpr (.inr (NameSet.mem_insert.mpr (.inl rfl)))⟩
        · exact grown.closed hOld
      loopless := by
        intro a b hMem
        rcases List.mem_cons.mp hMem with hEq | hOld
        · obtain ⟨rfl, rfl⟩ := Prod.mk.inj hEq
          exact fun hSame => h (.inl hSame)
        · exact g.loopless hOld }

/-- The graph without some nodes and without every edge that touches one of them. -/
def without (g : Graph) (removed : List String) : Graph where
  nodes := g.nodes.filter fun node => !removed.contains node
  edges := g.edges.filter fun edge => !removed.contains edge.1 && !removed.contains edge.2
  edges_nodup := g.edges_nodup.filter _
  closed := by
    intro a b h
    simp only [List.mem_filter, Bool.and_eq_true] at h
    have := g.closed h.1
    exact ⟨NameSet.mem_filter.mpr ⟨this.1, h.2.1⟩, NameSet.mem_filter.mpr ⟨this.2, h.2.2⟩⟩
  loopless h := g.loopless (List.mem_filter.mp h).1

/-! ## Queries -/

/-- Whether a name is a node. -/
def contains (g : Graph) (node : String) : Bool := g.nodes.contains node

/-- Whether there is an edge. -/
def hasEdge (g : Graph) (source target : String) : Bool := g.edges.contains (source, target)

/-- The number of nodes. -/
def nodeCount (g : Graph) : Nat := g.nodes.toList.length

/-- The number of edges. -/
def edgeCount (g : Graph) : Nat := g.edges.length

/-- The ends of the edges that begin at a node. -/
def dependencies (g : Graph) (node : String) : NameSet :=
  NameSet.ofList ((g.edges.filter fun edge => edge.1 == node).map Prod.snd)

/-- The nodes that depend on a node. -/
def dependents (g : Graph) (node : String) : List String :=
  (g.edges.filter fun edge => edge.2 == node).map Prod.fst

/-- Every node with its dependencies. -/
def dump (g : Graph) : List (String × NameSet) :=
  g.nodes.toList.map fun node => (node, g.dependencies node)

@[simp] theorem hasEdge_iff {g : Graph} {a b : String} :
    g.hasEdge a b = true ↔ (a, b) ∈ g.edges := by
  simp [hasEdge]

@[simp] theorem mem_dependencies {g : Graph} {a b : String} :
    b ∈ g.dependencies a ↔ (a, b) ∈ g.edges := by
  simp [dependencies]

theorem contains_dependents (g : Graph) (node other : String) :
    (g.dependents node).contains other = g.hasEdge other node := by
  rw [Bool.eq_iff_iff]
  simp [dependents]

/-! ## What the operations do -/

@[simp] theorem mem_nodes_addNode {g : Graph} {node other : String} :
    other ∈ (g.addNode node).nodes ↔ other = node ∨ other ∈ g.nodes := NameSet.mem_insert

@[simp] theorem mem_edges_addNode {g : Graph} {node : String} {edge : String × String} :
    edge ∈ (g.addNode node).edges ↔ edge ∈ g.edges := Iff.rfl

@[simp] theorem mem_nodes_addEdge {g : Graph} {source target node : String} :
    node ∈ (g.addEdge source target).nodes ↔
      node = source ∨ node = target ∨ node ∈ g.nodes := by
  unfold addEdge
  dsimp only
  split <;> simp [addNode]

@[simp] theorem mem_edges_addEdge {g : Graph} {source target : String}
    {edge : String × String} :
    edge ∈ (g.addEdge source target).edges ↔
      (source ≠ target ∧ edge = (source, target)) ∨ edge ∈ g.edges := by
  unfold addEdge
  dsimp only
  split
  · rename_i h
    simp only [mem_edges_addNode]
    constructor
    · exact .inr
    · rintro (⟨hNe, rfl⟩ | hOld)
      · exact h.resolve_left hNe
      · exact hOld
  · rename_i h
    have hNe : source ≠ target := fun hEq => h (.inl hEq)
    simp [hNe]

@[simp] theorem mem_nodes_without {g : Graph} {removed : List String} {node : String} :
    node ∈ (g.without removed).nodes ↔ node ∈ g.nodes ∧ node ∉ removed := by
  simp [without]

@[simp] theorem mem_edges_without {g : Graph} {removed : List String} {a b : String} :
    (a, b) ∈ (g.without removed).edges ↔
      (a, b) ∈ g.edges ∧ a ∉ removed ∧ b ∉ removed := by
  simp [without]

/-! ## Building from lists -/

/-- The graph with more nodes. -/
def addNodes (g : Graph) (nodes : List String) : Graph := nodes.foldl addNode g

/-- The graph with more edges. -/
def addEdges (g : Graph) (edges : List (String × String)) : Graph :=
  edges.foldl (fun g edge => g.addEdge edge.1 edge.2) g

end Graph

end XdrBindings
