import XdrBindings.Graph.Basic

/-!
# Cycles and dependency order

An edge leads from a node to something it depends on. A dependency order lists every
node after all its dependencies; among the nodes that could come next the smallest
name comes first.

Two nodes that depend on each other are reported as a pair before anything else.
Where no order exists for another reason, a longer cycle is searched depth first:
nodes and dependencies are tried in ascending order, and the search ends at the
first edge that leads back into the path that is being followed.

## Main statements

* `mem_mutualPairs`: the pairs found are the pairs with edges both ways.
-/

namespace XdrBindings

namespace Graph

/-! ## Mutual dependencies -/

/-- The pairs of nodes with edges both ways, the smaller name first. -/
def mutualPairs (g : Graph) : List (String × String) :=
  g.nodes.toList.flatMap fun a =>
    ((g.dependencies a).toList.filter fun b => a < b && g.hasEdge b a).map fun b => (a, b)

theorem mem_mutualPairs {g : Graph} {a b : String} :
    (a, b) ∈ g.mutualPairs ↔ a < b ∧ (a, b) ∈ g.edges ∧ (b, a) ∈ g.edges := by
  simp only [mutualPairs, List.mem_flatMap, List.mem_map, List.mem_filter, Bool.and_eq_true,
    decide_eq_true_eq, hasEdge_iff, ← NameSet.mem_def, mem_dependencies, Prod.mk.injEq]
  constructor
  · rintro ⟨a', _, b', ⟨hEdge, hLt, hBack⟩, rfl, rfl⟩
    exact ⟨hLt, hEdge, hBack⟩
  · rintro ⟨hLt, hEdge, hBack⟩
    exact ⟨a, (g.closed hEdge).1, b, ⟨hEdge, hLt, hBack⟩, rfl, rfl⟩

/-! ## Search for a cycle -/

/-- Searches from a node, where `path` leads to it and nothing new can be found from
the nodes in `done`. Gives the cycle that was met, or the nodes that are done then. A
path never repeats a node, so `bound`, the number of further nodes it may take, is
never used up where it starts above the number of nodes. -/
def search (g : Graph) : (bound : Nat) → (path done : List String) → (node : String) →
    Except (List String) (List String)
  | 0, _, done, _ => .ok done
  | bound + 1, path, done, node =>
    if done.contains node then .ok done
    else if path.contains node then .error (path.dropWhile (· != node))
    else do
      let done ← (g.dependencies node).toList.foldlM (search g bound (path ++ [node])) done
      return node :: done

/-- The first cycle that the search meets, in the order of its edges: each node depends
on the next one, and the last on the first. -/
def cycle? (g : Graph) : Option (List String) :=
  match g.nodes.toList.foldlM (search g (g.nodeCount + 1) []) [] with
  | .error cycle => some cycle
  | .ok _ => none

/-! ## Dependency order -/

/-- Why a graph has no dependency order. -/
inductive OrderError
  /-- Pairs of nodes depend on each other. -/
  | mutual (pairs : List (String × String))
  /-- Each node depends on the next one, and the last on the first. -/
  | cycle (nodes : List String)
  deriving DecidableEq, Repr

/-- What an error says. -/
def OrderError.message : OrderError → String
  | .mutual pairs =>
    "circular dependencies detected: " ++
      ", ".intercalate (pairs.map fun (a, b) => a ++ " <-> " ++ b)
  | .cycle nodes =>
    "dependency cycle detected: " ++
      match nodes with
      | [] => ""
      | first :: _ => " -> ".intercalate nodes ++ " -> " ++ first

/-- The nodes an error speaks of. -/
def OrderError.nodes : OrderError → List String
  | .mutual pairs => pairs.flatMap fun (a, b) => [a, b]
  | .cycle nodes => nodes

/-- A dependency order in the making. -/
structure Countdown where
  /-- Every node with the number of its dependencies that are not listed yet. -/
  counters : List (String × Int)
  /-- The nodes that can be listed next. -/
  ready : NameSet

/-- What an order begins with: nothing is listed, and the nodes without dependencies are
ready. -/
def countdown (g : Graph) : Countdown :=
  let counters := g.dump.map fun (node, targets) => (node, (targets.toList.length : Int))
  ⟨counters, .ofList ((counters.filter fun entry => entry.2 == 0).map Prod.fst)⟩

/-- Lists a ready node: the counter of every node that depends on it goes down by one, and a
node whose counter gets to zero that way is ready. -/
def Countdown.list (g : Graph) (node : String) (state : Countdown) : Countdown :=
  let dependents := g.dependents node
  let lowered := state.counters.map fun (other, count) =>
    (other, if dependents.contains other then count - 1 else count)
  let freed := lowered.filter fun (other, count) => dependents.contains other && count == 0
  ⟨lowered, (freed.map Prod.fst).foldl NameSet.insert (state.ready.erase node)⟩

/-- Lists the smallest ready node again and again, at most `bound` times. -/
def release (g : Graph) : (bound : Nat) → Countdown → List String
  | 0, _ => []
  | bound + 1, state =>
    match state.ready.toList with
    | [] => []
    | node :: _ => node :: release g bound (state.list g node)

/-- The nodes with every node after its dependencies, or why there is no such order. -/
def dependencyOrder (g : Graph) : Except OrderError (List String) :=
  let pairs := g.mutualPairs
  if pairs.isEmpty then
    let order := g.release g.nodeCount g.countdown
    if order.length = g.nodeCount then .ok order
    else
      .error (.cycle (g.cycle?.getD (g.nodes.toList.filter fun node => !order.contains node)))
  else .error (.mutual pairs)

end Graph

end XdrBindings
