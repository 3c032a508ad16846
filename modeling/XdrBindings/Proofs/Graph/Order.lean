import Mathlib.Data.Prod.Lex
import XdrBindings.Proofs.Graph.Search

/-!
# Dependency orders

The order is made by counting down: every node has a counter of the dependencies that are not
listed yet, and a node is ready when its counter is at zero.  `Countdown.Fits` says what the
counters and the ready nodes are in terms of the nodes listed so far, and a turn of the loop keeps
it.  Since the listed nodes are a listing, each node comes after everything that it depends on.

Where the loop stops with nodes left, each of them depends on another one of them.  Then the
search can not have listed all nodes either, so it has found a cycle.

## Main results

* `Countdown.Fits.list` — a turn of the loop counts down by the dependencies on one node.
* `isListing_release` — the loop makes a listing and stops when no node is ready.
* `dependencyOrder_decides` — a graph has an order unless it has a cycle, which is then reported.
-/

namespace XdrBindings.Graph

open Relation

variable {g : Graph}

/-! ## Counting down -/

/-- The number of dependencies of a node that are not listed. -/
def missing (g : Graph) (listed : List String) (node : String) : Nat :=
  (g.dependencies node).toList.countP fun b => !listed.contains b

theorem missing_nil (node : String) : g.missing [] node = (g.dependencies node).toList.length := by
  simp [missing]

theorem missing_eq_zero_iff {listed : List String} {node : String} :
    g.missing listed node = 0 ↔ ∀ b, g.DependsOn node b → b ∈ listed := by
  rw [missing, List.countP_eq_zero]
  simp [← NameSet.mem_def, DependsOn]

theorem countP_not_contains_cons {names listed : List String} {node : String}
    (hNodup : names.Nodup) (hNew : node ∉ listed) :
    names.countP (fun b => !listed.contains b) =
      names.countP (fun b => !(node :: listed).contains b) + if node ∈ names then 1 else 0 := by
  induction names with
  | nil => rfl
  | cons first rest ih =>
    obtain ⟨hFirst, hRest⟩ := List.nodup_cons.mp hNodup
    rw [List.countP_cons, List.countP_cons, ih hRest]
    by_cases hSame : first = node
    · subst hSame
      simp [hFirst, hNew]
    · have hOther : node ≠ first := Ne.symm hSame
      simp only [List.contains_cons, List.mem_cons, beq_eq_false_iff_ne.mpr hSame,
        Bool.false_or, hOther, false_or]
      omega

theorem missing_eq_add {listed : List String} {node : String} (hNew : node ∉ listed)
    (other : String) : g.missing listed other =
      g.missing (node :: listed) other + if g.hasEdge other node then 1 else 0 := by
  rw [missing, countP_not_contains_cons (g.dependencies other).toList_nodup hNew]
  simp only [← NameSet.mem_def, mem_dependencies, hasEdge_iff]
  rfl

namespace Countdown

/-- Whether the counters and the ready nodes are right for the nodes listed so far, the latest one
first. -/
structure Fits (g : Graph) (listed : List String) (state : Countdown) : Prop where
  listing : g.IsListing listed
  nodes : ∀ node ∈ listed, node ∈ g.nodes
  counters : state.counters = g.nodes.toList.map fun node => (node, (g.missing listed node : Int))
  ready : ∀ node, node ∈ state.ready ↔
    node ∈ g.nodes ∧ node ∉ listed ∧ ∀ b, g.DependsOn node b → b ∈ listed

theorem fits_countdown : Fits g [] g.countdown where
  listing := .nil
  nodes := nofun
  counters := by simp [countdown, dump, missing_nil]
  ready node := by
    simp [countdown, dump, ← missing_nil, missing_eq_zero_iff, ← NameSet.mem_def]

/-- A turn of the loop lists a ready node. -/
theorem Fits.list {listed : List String} {state : Countdown} (h : Fits g listed state)
    {node : String} (hReady : node ∈ state.ready) :
    Fits g (node :: listed) (state.list g node) := by
  obtain ⟨hNode, hNew, hDeps⟩ := (h.ready node).mp hReady
  have hLowered : (state.list g node).counters =
      g.nodes.toList.map fun other => (other, (g.missing (node :: listed) other : Int)) := by
    unfold Countdown.list
    dsimp only
    rw [h.counters, List.map_map]
    refine List.map_congr_left fun other _ => Prod.ext rfl ?_
    have hCount := missing_eq_add (g := g) hNew other
    dsimp only [Function.comp_apply]
    rw [contains_dependents]
    split at hCount <;> simp_all
  refine ⟨.cons hNew hDeps h.listing, List.forall_mem_cons.mpr ⟨hNode, h.nodes⟩, hLowered, ?_⟩
  intro other
  have hFreed : other ∈ (state.list g node).ready ↔
      (other ∈ state.ready ∧ other ≠ node) ∨
        (other ∈ g.nodes ∧ g.DependsOn other node ∧ g.missing (node :: listed) other = 0) := by
    have hFreed : (state.list g node).ready = (((state.list g node).counters.filter fun entry =>
        (g.dependents node).contains entry.1 && entry.2 == 0).map Prod.fst).foldl NameSet.insert
          (state.ready.erase node) := rfl
    rw [hFreed, hLowered, NameSet.mem_foldl_insert]
    simp only [contains_dependents]
    simp [← NameSet.mem_def, DependsOn]
  rw [hFreed, h.ready, missing_eq_zero_iff]
  constructor
  · rintro (⟨⟨hOther, hNotListed, hAll⟩, hNe⟩ | ⟨hOther, hEdge, hAll⟩)
    · refine ⟨hOther, ?_, fun b hb => List.mem_cons_of_mem _ (hAll b hb)⟩
      simp [hNe, hNotListed]
    · refine ⟨hOther, ?_, hAll⟩
      -- what depends on the new node was not listed before it
      rintro hMem
      rcases List.mem_cons.mp hMem with rfl | hListed
      · exact g.loopless hEdge rfl
      · exact hNew (h.listing.mem_of_dependsOn hListed hEdge)
  · rintro ⟨hOther, hNotListed, hAll⟩
    rw [List.mem_cons, not_or] at hNotListed
    by_cases hEdge : g.DependsOn other node
    · exact .inr ⟨hOther, hEdge, hAll⟩
    · refine .inl ⟨⟨hOther, hNotListed.2, fun b hb => ?_⟩, hNotListed.1⟩
      rcases List.mem_cons.mp (hAll b hb) with rfl | hListed
      · exact absurd hb hEdge
      · exact hListed

/-- One turn of the loop: the smallest ready node is listed. -/
def Turn (g : Graph) (state next : Countdown) : Prop :=
  ∃ node rest, state.ready.toList = node :: rest ∧ next = state.list g node

theorem exists_fits {state : Countdown} (h : ReflTransGen (Turn g) g.countdown state) :
    ∃ listed, Fits g listed state := by
  induction h with
  | refl => exact ⟨[], fits_countdown⟩
  | tail _ hTurn ih =>
    obtain ⟨listed, hFits⟩ := ih
    obtain ⟨node, rest, hNodes, rfl⟩ := hTurn
    refine ⟨node :: listed, hFits.list ?_⟩
    rw [NameSet.mem_def, hNodes]
    exact List.mem_cons_self

theorem Fits.nonneg {listed : List String} {state : Countdown} (h : Fits g listed state)
    {entry : String × Int} (hEntry : entry ∈ state.counters) : 0 ≤ entry.2 := by
  rw [h.counters] at hEntry
  obtain ⟨node, -, rfl⟩ := List.mem_map.mp hEntry
  exact Int.natCast_nonneg _

end Countdown

/-! ## The loop -/

theorem isListing_release {bound : Nat} {listed : List String} {state : Countdown}
    (h : Countdown.Fits g listed state) (hBound : g.nodeCount ≤ listed.length + bound) :
    ∃ final, Countdown.Fits g ((g.release bound state).reverse ++ listed) final ∧
      final.ready.toList = [] := by
  induction bound generalizing listed state with
  | zero =>
    refine ⟨state, h, ?_⟩
    cases hReady : state.ready.toList with
    | nil => rfl
    | cons node rest =>
      have hNode : node ∈ state.ready := by
        rw [NameSet.mem_def, hReady]
        exact List.mem_cons_self
      have hMore := h.list hNode
      have hShort := length_le_nodeCount hMore.listing.nodup hMore.nodes
      rw [List.length_cons] at hShort
      omega
  | succ bound ih =>
    rw [release]
    split
    · rename_i hNone
      exact ⟨state, h, hNone⟩
    · rename_i node rest hReady
      have hNode : node ∈ state.ready := by
        rw [NameSet.mem_def, hReady]
        exact List.mem_cons_self
      obtain ⟨final, hFinal, hNone⟩ := ih (h.list hNode) (by rw [List.length_cons]; omega)
      rw [List.reverse_cons, List.append_assoc]
      exact ⟨final, hFinal, hNone⟩

/-- Where no node is ready and no cycle is found, all nodes are listed. -/
theorem mem_of_cycle?_eq_none {listed : List String} {state : Countdown}
    (h : Countdown.Fits g listed state) (hNone : state.ready.toList = [])
    (hSearch : g.cycle? = none) {node : String} (hNode : node ∈ g.nodes) : node ∈ listed := by
  obtain ⟨all, hListing, hAll⟩ := exists_listing_of_cycle?_eq_none hSearch
  by_contra hLeft
  obtain ⟨first, ⟨hFirst, hOut⟩, hDeps⟩ :=
    hListing.exists_first (p := fun node => node ∈ g.nodes ∧ node ∉ listed)
      ⟨node, hAll node hNode, hNode, hLeft⟩
  have hReady : first ∈ state.ready := by
    refine (h.ready first).mpr ⟨hFirst, hOut, fun b hEdge => ?_⟩
    by_contra hb
    exact hDeps b hEdge ⟨(g.closed hEdge).2, hb⟩
  rw [NameSet.mem_def, hNone] at hReady
  cases hReady

/-! ## Orders -/

/-- A list of all nodes, each once and after everything that it depends on. -/
structure IsDependencyOrder (g : Graph) (order : List String) : Prop where
  perm : order.Perm g.nodes.toList
  after : ∀ a b, g.DependsOn a b → order.idxOf b < order.idxOf a

/-- A list of all pairs with edges both ways, each once and with the smaller name first, in the
order of pairs. -/
structure ListsMutual (g : Graph) (pairs : List (String × String)) : Prop where
  mem_iff : ∀ a b, (a, b) ∈ pairs ↔ a < b ∧ g.DependsOn a b ∧ g.DependsOn b a
  ascending : pairs.Pairwise (Prod.Lex (· < ·) (· < ·))

theorem listsMutual_mutualPairs : g.ListsMutual g.mutualPairs where
  mem_iff _ _ := mem_mutualPairs
  ascending := by
    unfold mutualPairs
    rw [List.pairwise_flatMap]
    constructor
    · intro a _
      rw [List.pairwise_map]
      exact ((g.dependencies a).ascending.filter _).imp fun hLt => .right a hLt
    · refine g.nodes.ascending.imp fun hLt first hFirst second hSecond => ?_
      obtain ⟨b, -, rfl⟩ := List.mem_map.mp hFirst
      obtain ⟨c, -, rfl⟩ := List.mem_map.mp hSecond
      exact .left _ _ hLt

theorem mutualPairs_isEmpty_iff :
    g.mutualPairs.isEmpty = true ↔ ∀ a b, g.DependsOn a b → ¬g.DependsOn b a := by
  rw [List.isEmpty_iff, List.eq_nil_iff_forall_not_mem]
  constructor
  · intro hNone a b hEdge hBack
    by_cases hLt : a < b
    · exact hNone (a, b) (mem_mutualPairs.mpr ⟨hLt, hEdge, hBack⟩)
    · have hGt := NameSet.lt_of_not_lt_of_ne hLt (g.loopless hEdge)
      exact hNone (b, a) (mem_mutualPairs.mpr ⟨hGt, hBack, hEdge⟩)
  · rintro hNone ⟨a, b⟩ hPair
    obtain ⟨-, hEdge, hBack⟩ := mem_mutualPairs.mp hPair
    exact hNone a b hEdge hBack

/-- The order that the loop makes is a listing from its end on, and with all nodes in it where no
cycle is found. -/
theorem exists_release : g.IsListing (g.release g.nodeCount g.countdown).reverse ∧
    (∀ node ∈ g.release g.nodeCount g.countdown, node ∈ g.nodes) ∧
      (g.cycle? = none → ∀ node ∈ g.nodes, node ∈ g.release g.nodeCount g.countdown) := by
  have hStart : Countdown.Fits g [] g.countdown := Countdown.fits_countdown
  have hBound : g.nodeCount ≤ ([] : List String).length + g.nodeCount := by simp
  obtain ⟨final, hFits, hNone⟩ := isListing_release hStart hBound
  rw [List.append_nil] at hFits
  refine ⟨hFits.listing, fun node hNode => hFits.nodes node (List.mem_reverse.mpr hNode), ?_⟩
  exact fun hSearch node hNode =>
    List.mem_reverse.mp (mem_of_cycle?_eq_none hFits hNone hSearch hNode)

theorem isDependencyOrder_of_eq_ok {order : List String} (h : g.dependencyOrder = .ok order) :
    g.IsDependencyOrder order ∧ g.IsAcyclic := by
  obtain ⟨hListing, hNodes, -⟩ := exists_release (g := g)
  unfold dependencyOrder at h
  dsimp only at h
  split at h
  · split at h
    · rename_i hLength
      obtain rfl := Except.ok.inj h
      have hPerm : (g.release g.nodeCount g.countdown).Perm g.nodes.toList :=
        (List.subperm_of_subset (List.nodup_reverse.mp hListing.nodup) hNodes).perm_of_length_le
          hLength.ge
      refine ⟨⟨hPerm, fun a b hEdge => ?_⟩, hListing.isAcyclic fun node hNode => ?_⟩
      · have hMem := List.mem_reverse.mpr (hPerm.mem_iff.mpr (g.closed hEdge).1)
        simpa using hListing.idxOf_lt hMem hEdge
      · exact List.mem_reverse.mpr (hPerm.mem_iff.mpr hNode)
    · cases h
  · cases h

theorem dependencyOrder_of_mutual {a b : String} (hEdge : g.DependsOn a b)
    (hBack : g.DependsOn b a) : g.dependencyOrder = .error (.mutual g.mutualPairs) := by
  have hSome : ¬g.mutualPairs.isEmpty = true :=
    fun hNone => mutualPairs_isEmpty_iff.mp hNone a b hEdge hBack
  unfold dependencyOrder
  rw [if_neg hSome]

/-- Without mutual dependencies there is an order or a cycle. -/
theorem dependencyOrder_of_not_mutual (hNone : ∀ a b, g.DependsOn a b → ¬g.DependsOn b a) :
    (∃ order, g.dependencyOrder = .ok order) ∨
      ∃ nodes, g.cycle? = some nodes ∧ g.dependencyOrder = .error (.cycle nodes) := by
  obtain ⟨hListing, hNodes, hAll⟩ := exists_release (g := g)
  unfold dependencyOrder
  rw [if_pos (mutualPairs_isEmpty_iff.mpr hNone)]
  dsimp only
  split
  · exact .inl ⟨_, rfl⟩
  · rename_i hLength
    cases hSearch : g.cycle? with
    | some nodes => exact .inr ⟨nodes, rfl, rfl⟩
    | none =>
      -- then all nodes are listed, and the length is not as it is
      have hShort := length_le_nodeCount (List.nodup_reverse.mp hListing.nodup) hNodes
      have hLong := (List.subperm_of_subset g.nodes.toList_nodup (hAll hSearch)).length_le
      exact absurd (Nat.le_antisymm hShort hLong) hLength

/-- There is a dependency order if and only if there is no cycle.  Otherwise the pairs of nodes
that depend on each other are reported, if there are any, and else a cycle that the search has
found.  No counter is ever below zero. -/
theorem dependencyOrder_decides (g : Graph) :
    ((∃ order, g.dependencyOrder = .ok order) ↔ g.IsAcyclic) ∧
      (∀ order, g.dependencyOrder = .ok order → g.IsDependencyOrder order) ∧
      ((∃ a b, g.DependsOn a b ∧ g.DependsOn b a) →
        ∃ pairs, g.dependencyOrder = .error (.mutual pairs) ∧ g.ListsMutual pairs) ∧
      (¬g.IsAcyclic → (∀ a b, g.DependsOn a b → ¬g.DependsOn b a) →
        ∃ nodes, g.dependencyOrder = .error (.cycle nodes) ∧ g.cycle? = some nodes ∧
          g.IsCycle nodes ∧ 3 ≤ nodes.length) ∧
      ∀ state, ReflTransGen (Countdown.Turn g) g.countdown state →
        ∀ entry ∈ state.counters, 0 ≤ entry.2 := by
  have hMutual {a b : String} (hEdge : g.DependsOn a b) (hBack : g.DependsOn b a) :
      ¬g.IsAcyclic := fun hAcyclic => hAcyclic a (.tail (.single hEdge) hBack)
  refine ⟨⟨?_, ?_⟩, ?_, ?_, ?_, ?_⟩
  · rintro ⟨order, hOrder⟩
    exact (isDependencyOrder_of_eq_ok hOrder).2
  · intro hAcyclic
    rcases dependencyOrder_of_not_mutual fun a b hEdge hBack => hMutual hEdge hBack hAcyclic with
      hOrder | ⟨nodes, hSearch, -⟩
    · exact hOrder
    · exact absurd hAcyclic (not_isAcyclic_of_isCycle (isCycle_of_cycle?_eq_some hSearch))
  · exact fun order hOrder => (isDependencyOrder_of_eq_ok hOrder).1
  · rintro ⟨a, b, hEdge, hBack⟩
    exact ⟨g.mutualPairs, dependencyOrder_of_mutual hEdge hBack, listsMutual_mutualPairs⟩
  · intro hCyclic hNone
    rcases dependencyOrder_of_not_mutual hNone with ⟨order, hOrder⟩ | ⟨nodes, hSearch, hError⟩
    · exact absurd (isDependencyOrder_of_eq_ok hOrder).2 hCyclic
    · have hCycle := isCycle_of_cycle?_eq_some hSearch
      exact ⟨nodes, hError, hSearch, hCycle, hCycle.three_le_length hNone⟩
  · intro state hRun entry hEntry
    obtain ⟨listed, hFits⟩ := Countdown.exists_fits hRun
    exact hFits.nonneg hEntry

end XdrBindings.Graph
