import Mathlib.Data.List.Basic
import Mathlib.Data.List.Chain
import Mathlib.Logic.Relation
import XdrBindings.Graph.Order

/-!
# Cycles and listings

An edge says that one node depends on another one.  A cycle is a list of distinct nodes in
which each node depends on the next one and the last on the first; a graph without such
paths back is acyclic.

A listing grows at its front, and a node enters it when everything that it depends on is
there.  Both the search for a cycle and the dependency order list nodes that way, and what is
listed lies on no cycle: the place in the listing falls along every edge.

## Main results

* `IsCycle.transGen_of_mem` — on a cycle, a path leads from every node to every node.
* `IsCycle.exists_next` — every node of a cycle depends on a node of it.
* `IsCycle.three_le_length` — without mutual dependencies a cycle has three nodes.
* `IsListing.not_transGen` — a listed node does not depend on itself.
* `IsListing.exists_first` — among listed nodes with a property, one depends on none of them.
-/

namespace XdrBindings.Graph

open Relation

variable {g : Graph}

/-- Whether there is an edge from one node to another one. -/
def DependsOn (g : Graph) (a b : String) : Prop := (a, b) ∈ g.edges

/-- A directed cycle: distinct nodes, each of which depends on the next one, and the last one
on the first. -/
structure IsCycle (g : Graph) (nodes : List String) : Prop where
  ne_nil : nodes ≠ []
  nodup : nodes.Nodup
  chain : nodes.IsChain g.DependsOn
  closes : ∀ last ∈ nodes.getLast?, ∀ first ∈ nodes.head?, g.DependsOn last first

/-- A graph in which no path leads from a node back to it. -/
def IsAcyclic (g : Graph) : Prop := ∀ node, ¬TransGen g.DependsOn node node

/-! ## Cycles -/

/-- On a cycle, a path leads from every node to every node. -/
theorem IsCycle.transGen_of_mem {nodes : List String} (h : g.IsCycle nodes) {a b : String}
    (hA : a ∈ nodes) (hB : b ∈ nodes) : TransGen g.DependsOn a b := by
  obtain ⟨first, rest, rfl⟩ := List.exists_cons_of_ne_nil h.ne_nil
  -- once around: the nodes of the cycle and the first one again
  have hAround : (first :: (rest ++ [first])).IsChain g.DependsOn := by
    rw [← List.cons_append]
    refine h.chain.append (List.isChain_singleton first) ?_
    intro last hLast next hNext
    rw [List.head?_singleton, Option.mem_some_iff] at hNext
    exact h.closes last hLast next (Option.mem_some_iff.mpr hNext)
  have hPaths : (first :: (rest ++ [first])).Pairwise (TransGen g.DependsOn) :=
    List.isChain_iff_pairwise.mp (hAround.imp fun _ _ => TransGen.single)
  rw [List.pairwise_cons, List.pairwise_append] at hPaths
  obtain ⟨hFrom, -, -, hTo⟩ := hPaths
  have hFirst : TransGen g.DependsOn a first := by
    rcases List.mem_cons.mp hA with rfl | hRest
    · exact hFrom a (by simp)
    · exact hTo a hRest first (by simp)
  exact hFirst.trans (hFrom b (by simpa [or_comm] using hB))

theorem IsCycle.transGen {nodes : List String} (h : g.IsCycle nodes) {node : String}
    (hNode : node ∈ nodes) : TransGen g.DependsOn node node := h.transGen_of_mem hNode hNode

/-- Every node of a cycle depends on a node of it. -/
theorem IsCycle.exists_next {nodes : List String} (h : g.IsCycle nodes) {node : String}
    (hNode : node ∈ nodes) : ∃ next ∈ nodes, g.DependsOn node next := by
  obtain ⟨front, back, rfl⟩ := List.append_of_mem hNode
  cases back with
  | nil =>
    obtain ⟨first, hFirst⟩ := Option.isSome_iff_exists.mp (List.isSome_head?.mpr h.ne_nil)
    exact ⟨first, List.mem_of_head? hFirst, h.closes node (by simp) first hFirst⟩
  | cons next rest =>
    have hChain := h.chain.right_of_append
    exact ⟨next, by simp, (List.isChain_cons_cons.mp hChain).1⟩

theorem not_isAcyclic_of_isCycle {nodes : List String} (h : g.IsCycle nodes) : ¬g.IsAcyclic := by
  obtain ⟨first, rest, rfl⟩ := List.exists_cons_of_ne_nil h.ne_nil
  exact fun hAcyclic => hAcyclic first (h.transGen List.mem_cons_self)

theorem mem_nodes_of_transGen {a b : String} (h : TransGen g.DependsOn a b) : a ∈ g.nodes := by
  induction h using TransGen.head_induction_on with
  | single hEdge => exact (g.closed hEdge).1
  | head hEdge _ _ => exact (g.closed hEdge).1

theorem IsCycle.mem_nodes {nodes : List String} (h : g.IsCycle nodes) {node : String}
    (hNode : node ∈ nodes) : node ∈ g.nodes := mem_nodes_of_transGen (h.transGen hNode)

/-- No node depends on itself alone. -/
theorem IsCycle.two_le_length {nodes : List String} (h : g.IsCycle nodes) : 2 ≤ nodes.length := by
  match nodes, h with
  | [], h => exact absurd rfl h.ne_nil
  | [a], h => exact absurd rfl (g.loopless (h.closes a rfl a rfl))
  | _ :: _ :: _, _ => simp

theorem IsCycle.three_le_length {nodes : List String} (h : g.IsCycle nodes)
    (hNone : ∀ a b, g.DependsOn a b → ¬g.DependsOn b a) : 3 ≤ nodes.length := by
  match nodes, h with
  | [], h => exact absurd rfl h.ne_nil
  | [a], h => exact absurd rfl (g.loopless (h.closes a rfl a rfl))
  | [a, b], h => exact absurd (h.closes b rfl a rfl) (hNone a b (List.isChain_pair.mp h.chain))
  | _ :: _ :: _ :: _, _ => simp

theorem IsCycle.of_without {removed nodes : List String} (h : (g.without removed).IsCycle nodes) :
    g.IsCycle nodes where
  ne_nil := h.ne_nil
  nodup := h.nodup
  chain := h.chain.imp fun _ _ hEdge => (mem_edges_without.mp hEdge).1
  closes last hLast first hFirst := (mem_edges_without.mp (h.closes last hLast first hFirst)).1

/-! ## Listings -/

/-- Distinct nodes, the latest one first, each listed after everything that it depends on. -/
inductive IsListing (g : Graph) : List String → Prop
  | nil : IsListing g []
  | cons {node : String} {listed : List String} (hNew : node ∉ listed)
      (hDeps : ∀ b, g.DependsOn node b → b ∈ listed) (hListed : IsListing g listed) :
      IsListing g (node :: listed)

namespace IsListing

variable {listed : List String}

theorem nodup (h : g.IsListing listed) : listed.Nodup := by
  induction h with
  | nil => exact List.nodup_nil
  | cons hNew _ _ ih => exact List.nodup_cons.mpr ⟨hNew, ih⟩

theorem mem_of_dependsOn (h : g.IsListing listed) {a b : String} (hMem : a ∈ listed)
    (hEdge : g.DependsOn a b) : b ∈ listed := by
  induction h with
  | nil => cases hMem
  | @cons node rest _ hDeps _ ih =>
    rcases List.mem_cons.mp hMem with rfl | hRest
    · exact List.mem_cons_of_mem _ (hDeps b hEdge)
    · exact List.mem_cons_of_mem _ (ih hRest)

/-- A dependency was listed earlier. -/
theorem idxOf_lt (h : g.IsListing listed) {a b : String} (hMem : a ∈ listed)
    (hEdge : g.DependsOn a b) : listed.reverse.idxOf b < listed.reverse.idxOf a := by
  induction h with
  | nil => cases hMem
  | @cons node rest hNew hDeps hListed ih =>
    rw [List.reverse_cons]
    rcases List.mem_cons.mp hMem with rfl | hRest
    · have hb : b ∈ rest.reverse := List.mem_reverse.mpr (hDeps b hEdge)
      have hLast : a ∉ rest.reverse := fun hIn => hNew (List.mem_reverse.mp hIn)
      rw [List.idxOf_append_of_mem hb, List.idxOf_append_of_notMem hLast]
      exact Nat.lt_add_right _ (List.idxOf_lt_length_of_mem hb)
    · have hb : b ∈ rest.reverse := List.mem_reverse.mpr (hListed.mem_of_dependsOn hRest hEdge)
      rw [List.idxOf_append_of_mem hb, List.idxOf_append_of_mem (List.mem_reverse.mpr hRest)]
      exact ih hRest

theorem not_transGen (h : g.IsListing listed) {node : String} (hMem : node ∈ listed) :
    ¬TransGen g.DependsOn node node := by
  have hEarlier {b : String} (hPath : TransGen g.DependsOn node b) :
      b ∈ listed ∧ listed.reverse.idxOf b < listed.reverse.idxOf node := by
    induction hPath with
    | single hEdge => exact ⟨h.mem_of_dependsOn hMem hEdge, h.idxOf_lt hMem hEdge⟩
    | tail _ hEdge ih =>
      exact ⟨h.mem_of_dependsOn ih.1 hEdge, (h.idxOf_lt ih.1 hEdge).trans ih.2⟩
  exact fun hPath => (hEarlier hPath).2.false

/-- A graph with a listing of all its nodes is acyclic. -/
theorem isAcyclic (h : g.IsListing listed) (hAll : ∀ node ∈ g.nodes, node ∈ listed) :
    g.IsAcyclic :=
  fun node hPath => h.not_transGen (hAll node (mem_nodes_of_transGen hPath)) hPath

/-- Among the listed nodes with a property, the one listed first depends on none of them. -/
theorem exists_first (h : g.IsListing listed) {p : String → Prop}
    (hSome : ∃ node ∈ listed, p node) : ∃ node, p node ∧ ∀ b, g.DependsOn node b → ¬p b := by
  induction h with
  | nil =>
    obtain ⟨node, hMem, -⟩ := hSome
    cases hMem
  | @cons node rest _ hDeps _ ih =>
    by_cases hRest : ∃ other ∈ rest, p other
    · exact ih hRest
    · obtain ⟨other, hMem, hOther⟩ := hSome
      rcases List.mem_cons.mp hMem with rfl | hIn
      · exact ⟨other, hOther, fun b hEdge hb => hRest ⟨b, hDeps b hEdge, hb⟩⟩
      · exact absurd ⟨other, hIn, hOther⟩ hRest

end IsListing

end XdrBindings.Graph
