import Mathlib.Data.List.Nodup
import Mathlib.Data.List.Perm.Subperm
import XdrBindings.Proofs.Graph.Cycle

/-!
# The search for a cycle

The search follows a path of distinct nodes, each of which depends on the next one.  Where it
meets a node of the path again, the path from there on is a cycle.  Where it does not, the nodes
that it has finished are a listing, and with every node finished the graph is acyclic.

A path is no longer than the graph has nodes, so the bound of the search is never used up.

## Main results

* `isCycle_of_cycle?_eq_some` — what the search finds is a cycle.
* `exists_listing_of_cycle?_eq_none` — a search that finds nothing has listed all nodes.
* `cycle?_decides` — the search finds a cycle if and only if there is one.
-/

namespace XdrBindings.Graph

variable {g : Graph}

theorem length_le_nodeCount {names : List String} (hNodup : names.Nodup)
    (hNodes : ∀ name ∈ names, name ∈ g.nodes) : names.length ≤ g.nodeCount :=
  (List.subperm_of_subset hNodup hNodes).length_le

/-- A path of the search that is about to go on to a node. -/
structure IsPathTo (g : Graph) (path : List String) (node : String) : Prop where
  nodup : path.Nodup
  chain : (path ++ [node]).IsChain g.DependsOn
  nodes : ∀ name ∈ path ++ [node], name ∈ g.nodes

/-- The part of a path from a node on that it comes back to is a cycle. -/
theorem IsPathTo.isCycle {path : List String} {node : String} (h : g.IsPathTo path node)
    (hMem : node ∈ path) : g.IsCycle (path.dropWhile (· != node)) := by
  obtain ⟨front, back, rfl, hFront⟩ := List.eq_append_cons_of_mem hMem
  have hDrop : (front ++ node :: back).dropWhile (· != node) = node :: back := by
    rw [List.dropWhile_append_of_pos, List.dropWhile_cons_of_neg]
    · simp
    · intro name hName
      rw [bne_iff_ne]
      rintro rfl
      exact hFront hName
  rw [hDrop]
  have hChain : ((node :: back) ++ [node]).IsChain g.DependsOn := by
    have hAll := h.chain
    rw [List.append_assoc] at hAll
    exact hAll.right_of_append
  rw [List.isChain_append] at hChain
  obtain ⟨hPath, -, hCloses⟩ := hChain
  exact
    { ne_nil := List.cons_ne_nil _ _
      nodup := h.nodup.of_append_right
      chain := hPath
      closes := hCloses }

theorem IsPathTo.step {path : List String} {node target : String} (h : g.IsPathTo path node)
    (hOff : node ∉ path) (hEdge : g.DependsOn node target) :
    g.IsPathTo (path ++ [node]) target where
  nodup := List.nodup_append_comm.mp (List.nodup_cons.mpr ⟨hOff, h.nodup⟩)
  chain := by
    refine h.chain.append (List.isChain_singleton target) ?_
    simpa using hEdge
  nodes name hName := by
    rcases List.mem_append.mp hName with hOld | hLast
    · exact h.nodes name hOld
    · rw [List.mem_singleton.mp hLast]
      exact (g.closed hEdge).2

/-- What a search that goes on to some targets may give: a cycle, or a listing with everything
that was listed before and with all the targets, but with no node of the path. -/
def Outcome (g : Graph) (path targets done : List String) :
    Except (List String) (List String) → Prop
  | .error cycle => g.IsCycle cycle
  | .ok next => g.IsListing next ∧ done ⊆ next ∧ targets ⊆ next ∧ path.Disjoint next

/-- Targets are tried one after the other. -/
theorem outcome_foldlM {path : List String}
    {step : List String → String → Except (List String) (List String)}
    {targets : List String} (hStep : ∀ target ∈ targets, ∀ done, g.IsListing done →
      path.Disjoint done → g.Outcome path [target] done (step done target))
    {done : List String} (hDone : g.IsListing done) (hApart : path.Disjoint done) :
    g.Outcome path targets done (targets.foldlM step done) := by
  induction targets generalizing done with
  | nil => exact ⟨hDone, List.Subset.refl _, List.nil_subset _, hApart⟩
  | cons target rest ih =>
    have hFirst := hStep target List.mem_cons_self done hDone hApart
    rw [List.foldlM_cons]
    cases hResult : step done target with
    | error cycle =>
      rw [hResult] at hFirst
      exact hFirst
    | ok next =>
      rw [hResult] at hFirst
      obtain ⟨hNext, hKept, hTarget, hNextApart⟩ := hFirst
      have hRest := ih (fun other hOther => hStep other (List.mem_cons_of_mem _ hOther))
        hNext hNextApart
      change g.Outcome path (target :: rest) done (rest.foldlM step next)
      cases hLast : rest.foldlM step next with
      | error cycle =>
        rw [hLast] at hRest
        exact hRest
      | ok last =>
        rw [hLast] at hRest
        obtain ⟨hListing, hMore, hTargets, hLastApart⟩ := hRest
        refine ⟨hListing, List.Subset.trans hKept hMore, ?_, hLastApart⟩
        exact List.cons_subset.mpr ⟨hMore (hTarget List.mem_cons_self), hTargets⟩

theorem outcome_search {bound : Nat} {path done : List String} {node : String}
    (hPath : g.IsPathTo path node) (hDone : g.IsListing done) (hApart : path.Disjoint done)
    (hBound : g.nodeCount < path.length + bound) :
    g.Outcome path [node] done (g.search bound path done node) := by
  induction bound generalizing path done node with
  | zero =>
    have hShort := length_le_nodeCount hPath.nodup fun name hName =>
      hPath.nodes name (List.mem_append_left _ hName)
    omega
  | succ bound ih =>
    rw [search]
    split
    · rename_i hIn
      have hMem : node ∈ done := by simpa using hIn
      exact ⟨hDone, List.Subset.refl _, by simpa using hMem, hApart⟩
    · rename_i hNew
      split
      · rename_i hIn
        exact hPath.isCycle (by simpa using hIn)
      · rename_i hOff
        have hNewNode : node ∉ done := by simpa using hNew
        have hOffPath : node ∉ path := by simpa using hOff
        have hLonger : (path ++ [node]).Disjoint done := by
          simpa [List.disjoint_append_left, hNewNode] using hApart
        -- the dependencies are searched along the path that ends with this node
        have hStep : ∀ target ∈ (g.dependencies node).toList, ∀ done, g.IsListing done →
            (path ++ [node]).Disjoint done → g.Outcome (path ++ [node]) [target] done
              (g.search bound (path ++ [node]) done target) := by
          intro target hTarget done hDone hApart
          refine ih (hPath.step hOffPath (mem_dependencies.mp hTarget)) hDone hApart ?_
          simp only [List.length_append, List.length_singleton]
          omega
        have hFold := outcome_foldlM hStep hDone hLonger
        cases hResult :
            (g.dependencies node).toList.foldlM (g.search bound (path ++ [node])) done with
        | error cycle =>
          rw [hResult] at hFold
          exact hFold
        | ok next =>
          rw [hResult] at hFold
          obtain ⟨hListing, hKept, hTargets, hNextApart⟩ := hFold
          rw [List.disjoint_append_left, List.singleton_disjoint] at hNextApart
          refine ⟨.cons hNextApart.2 (fun b hEdge => hTargets (mem_dependencies.mpr hEdge))
            hListing, List.subset_cons_of_subset _ hKept, by simp, ?_⟩
          rw [List.disjoint_cons_right]
          exact ⟨hOffPath, hNextApart.1⟩

/-- The search from all nodes. -/
theorem outcome_searchAll : g.Outcome [] g.nodes.toList []
    (g.nodes.toList.foldlM (g.search (g.nodeCount + 1) []) []) := by
  refine outcome_foldlM (fun node hNode done hDone hApart => ?_) .nil (List.disjoint_nil_left _)
  refine outcome_search ⟨List.nodup_nil, List.isChain_singleton node, ?_⟩ hDone hApart ?_
  · intro name hName
    rw [List.nil_append, List.mem_singleton] at hName
    exact hName ▸ hNode
  · simp

theorem isCycle_of_cycle?_eq_some {cycle : List String} (h : g.cycle? = some cycle) :
    g.IsCycle cycle := by
  have hAll := outcome_searchAll (g := g)
  unfold cycle? at h
  split at h
  · rename_i found hFound
    rw [hFound] at hAll
    exact Option.some.inj h ▸ hAll
  · cases h

theorem exists_listing_of_cycle?_eq_none (h : g.cycle? = none) :
    ∃ listed, g.IsListing listed ∧ ∀ node ∈ g.nodes, node ∈ listed := by
  have hAll := outcome_searchAll (g := g)
  unfold cycle? at h
  split at h
  · cases h
  · rename_i listed hListed
    rw [hListed] at hAll
    exact ⟨listed, hAll.1, fun node hNode => hAll.2.2.1 hNode⟩

/-- The search finds something exactly if some node depends on itself along a path.  What it finds
are at least two distinct nodes, each of which depends on the next one, and the last one on the
first. -/
theorem cycle?_decides (g : Graph) :
    ((∃ nodes, g.cycle? = some nodes) ↔ ∃ node, Relation.TransGen g.DependsOn node node) ∧
      ∀ nodes, g.cycle? = some nodes → g.IsCycle nodes ∧ 2 ≤ nodes.length := by
  refine ⟨⟨?_, ?_⟩, fun nodes hFound => ?_⟩
  · rintro ⟨nodes, hFound⟩
    have hCycle := isCycle_of_cycle?_eq_some hFound
    exact ⟨nodes.head hCycle.ne_nil, hCycle.transGen (List.head_mem _)⟩
  · rintro ⟨node, hPath⟩
    by_contra hNothing
    -- then all nodes are listed, and what is listed lies on no cycle
    obtain ⟨listed, hListing, hAll⟩ := exists_listing_of_cycle?_eq_none
      (Option.eq_none_iff_forall_ne_some.mpr fun nodes hFound => hNothing ⟨nodes, hFound⟩)
    exact hListing.isAcyclic hAll node hPath
  · have hCycle := isCycle_of_cycle?_eq_some hFound
    exact ⟨hCycle, hCycle.two_le_length⟩

end XdrBindings.Graph
