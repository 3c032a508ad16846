import Mathlib.Data.List.Basic
import XdrBindings.Proofs.Graph.Order

/-!
# The least dependency order

A graph may have many dependency orders.  The one that is made lists the smallest ready node at
every turn, and it is the least of all of them, names being compared one by one from the front.

Any other order that goes on from the same listed nodes continues with a node whose dependencies
are all listed, so with a ready one.  That node is the one listed by the loop, and both go on from
the same nodes again, or it is greater.

## Main results

* `release_eq_or_lex` — from any state of the loop on, what is listed is the least.
* `dependencyOrder_least` — the dependency order of a graph without cycles is the least one.
-/

namespace XdrBindings.Graph

variable {g : Graph}

/-! ## Orders as listings -/

theorem IsListing.of_append {front listed : List String} (h : g.IsListing (front ++ listed)) :
    g.IsListing listed := by
  induction front with
  | nil => exact h
  | cons node rest ih =>
    cases h with
    | cons _ _ hRest => exact ih hRest

/-- Read from its end, a dependency order is a listing. -/
theorem IsDependencyOrder.isListing {order : List String} (h : g.IsDependencyOrder order) :
    g.IsListing order.reverse := by
  have hNodup : order.Nodup := h.perm.nodup_iff.mpr g.nodes.toList_nodup
  have hFront (front back : List String) (hParts : front ++ back = order) :
      g.IsListing front.reverse := by
    induction front using List.reverseRecOn generalizing back with
    | nil => exact .nil
    | append_singleton front node ih =>
      rw [List.append_assoc] at hParts
      rw [← hParts, List.nodup_append] at hNodup
      have hNew : node ∉ front := fun hMem => hNodup.2.2 node hMem node (by simp) rfl
      have hPlace : order.idxOf node = front.length := by
        rw [← hParts, List.idxOf_append_of_notMem hNew]
        simp
      rw [List.reverse_concat]
      refine .cons (by simpa using hNew) (fun b hEdge => ?_) (ih _ hParts)
      by_contra hLater
      rw [List.mem_reverse] at hLater
      have hEarlier := h.after node b hEdge
      rw [hPlace, ← hParts, List.idxOf_append_of_notMem hLater] at hEarlier
      omega
  exact hFront order [] (List.append_nil order)

/-! ## The loop -/

/-- Of all ways to go on from the listed nodes, the loop takes the least. -/
theorem release_eq_or_lex {order listed : List String} {state : Countdown}
    (h : Countdown.Fits g listed state) (hOrder : g.IsListing (order.reverse ++ listed))
    (hNodes : ∀ node ∈ order, node ∈ g.nodes) :
    g.release order.length state = order ∨
      List.Lex (· < ·) (g.release order.length state) order := by
  induction order generalizing listed state with
  | nil => exact .inl rfl
  | cons node rest ih =>
    obtain ⟨hNode, hRestNodes⟩ := List.forall_mem_cons.mp hNodes
    rw [List.reverse_cons, List.append_assoc] at hOrder
    have hReady : node ∈ state.ready := by
      cases hOrder.of_append with
      | cons hNew hDeps _ => exact (h.ready node).mpr ⟨hNode, hNew, hDeps⟩
    rw [List.length_cons, release]
    split
    · rename_i hNone
      rw [NameSet.mem_def, hNone] at hReady
      cases hReady
    · rename_i first others hFirst
      have hAscending := state.ready.ascending
      rw [NameSet.mem_def, hFirst] at hReady
      rw [hFirst] at hAscending
      rcases List.mem_cons.mp hReady with rfl | hOther
      · -- both list the same node, and go on from the same nodes
        have hListed : node ∈ state.ready := by
          rw [NameSet.mem_def, hFirst]
          exact List.mem_cons_self
        rcases ih (h.list hListed) hOrder hRestNodes with hEq | hLess
        · exact .inl (congrArg _ hEq)
        · exact .inr (.cons hLess)
      · exact .inr (.rel (List.rel_of_pairwise_cons hAscending hOther))

/-! ## The order of a graph -/

theorem eq_release_of_eq_ok {order : List String} (h : g.dependencyOrder = .ok order) :
    order = g.release g.nodeCount g.countdown := by
  unfold dependencyOrder at h
  dsimp only at h
  split at h
  · split at h
    · exact (Except.ok.inj h).symm
    · cases h
  · cases h

theorem exists_dependencyOrder (h : g.IsAcyclic) : ∃ order, g.dependencyOrder = .ok order := by
  rcases dependencyOrder_of_not_mutual fun a b hEdge hBack =>
      h a (.tail (.single hEdge) hBack) with hOrder | ⟨nodes, hSearch, -⟩
  · exact hOrder
  · exact absurd h (not_isAcyclic_of_isCycle (isCycle_of_cycle?_eq_some hSearch))

/-- A graph without cycles gets a dependency order, and of all its dependency orders the one that
comes first when names are compared one by one. -/
theorem dependencyOrder_least (hAcyclic : g.IsAcyclic) :
    ∃ order, g.dependencyOrder = .ok order ∧ g.IsDependencyOrder order ∧
      ∀ other, g.IsDependencyOrder other → other ≠ order → List.Lex (· < ·) order other := by
  obtain ⟨order, hOrder⟩ := exists_dependencyOrder hAcyclic
  refine ⟨order, hOrder, (isDependencyOrder_of_eq_ok hOrder).1, fun other hOther hNe => ?_⟩
  have hLength : other.length = g.nodeCount := hOther.perm.length_eq
  have hListing : g.IsListing (other.reverse ++ []) := by
    rw [List.append_nil]
    exact hOther.isListing
  have hLeast := release_eq_or_lex Countdown.fits_countdown hListing
    fun node hNode => hOther.perm.mem_iff.mp hNode
  rw [hLength, ← eq_release_of_eq_ok hOrder] at hLeast
  exact hLeast.resolve_left hNe.symm

/-- The smallest name waits for the greatest one.  It could come right behind it, but a name between
the two comes first. -/
theorem dependencyOrder_least_three :
    ((empty.addEdge "a" "z").addNode "m").IsAcyclic ∧
      ((empty.addEdge "a" "z").addNode "m").IsDependencyOrder ["z", "a", "m"] ∧
      ∃ order, ((empty.addEdge "a" "z").addNode "m").dependencyOrder = .ok order ∧
        order = ["m", "z", "a"] ∧ List.Lex (· < ·) order ["z", "a", "m"] := by
  have hMade : ((empty.addEdge "a" "z").addNode "m").dependencyOrder =
      .ok ["m", "z", "a"] := by decide
  have hAcyclic := (isDependencyOrder_of_eq_ok hMade).2
  have hOther : ((empty.addEdge "a" "z").addNode "m").IsDependencyOrder ["z", "a", "m"] := by
    have hAfter : ∀ edge ∈ ((empty.addEdge "a" "z").addNode "m").edges,
        ["z", "a", "m"].idxOf edge.2 < ["z", "a", "m"].idxOf edge.1 := by decide
    exact ⟨by decide, fun a b hEdge => hAfter (a, b) hEdge⟩
  obtain ⟨order, hOrder, -, hLeast⟩ := dependencyOrder_least hAcyclic
  obtain rfl : order = ["m", "z", "a"] := Except.ok.inj (hOrder.symm.trans hMade)
  exact ⟨hAcyclic, hOther, _, hOrder, rfl, hLeast _ hOther (by decide)⟩

end XdrBindings.Graph
