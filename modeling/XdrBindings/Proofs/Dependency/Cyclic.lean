import XdrBindings.Proofs.Dependency.Plan

/-!
# Which files on cycles a plan sets aside

A plan first sets aside the files that depend on each other in pairs.  From then on it only sees
cycles of the other files, and it sets aside one whole cycle after the other.  So a longer cycle may
break before it is met, because a pair or another cycle took one of its files, and its other files
are planned although they lie on a directed cycle of the whole graph.

`Plan.Gathers` says what the rounds gather: the paired files, and whole cycles of the files that are
not paired.  At the end no cycle is left, so of every cycle some file was taken, and with it a whole
cycle that meets the first one.

## Main results

* `Plan.Gathers.round`, `Plan.Gathers.rounds` — files are set aside by whole cycles.
* `Dependencies.plan_sets_aside` — which files are set aside whatever cycles are met, and which are
  planned though a cycle of the whole graph goes through them.
* `Graph.IsCycle.isPinned` — cycles that are met by no other cycle.
* `Dependencies.cyclic_file_planned` — a file on a cycle that is planned.
-/

namespace XdrBindings

open Relation

namespace Graph

variable {g : Graph} {nodes removed : List String}

/-- Whether a node and another one depend on each other. -/
def IsPaired (g : Graph) (node : String) : Prop :=
  ∃ other, g.DependsOn node other ∧ g.DependsOn other node

/-- Whether a cycle goes through a node such that no cycle that meets it passes the node by. -/
def IsPinned (g : Graph) (node : String) : Prop :=
  ∃ nodes, g.IsCycle nodes ∧ node ∈ nodes ∧
    ∀ other, g.IsCycle other → (∃ shared ∈ nodes, shared ∈ other) → node ∈ other

theorem IsCycle.mono {other : Graph} (h : g.IsCycle nodes)
    (hEdges : ∀ a b, g.DependsOn a b → other.DependsOn a b) : other.IsCycle nodes where
  ne_nil := h.ne_nil
  nodup := h.nodup
  chain := h.chain.imp hEdges
  closes last hLast first hFirst := hEdges _ _ (h.closes last hLast first hFirst)

/-- A cycle whose nodes depend on nothing but the next one is met by no other cycle, so all its
nodes are pinned. -/
theorem IsCycle.isPinned (h : g.IsCycle nodes)
    (hOnly : ∀ a ∈ nodes, ∀ b c, g.DependsOn a b → g.DependsOn a c → b = c) {node : String}
    (hNode : node ∈ nodes) : g.IsPinned node := by
  refine ⟨nodes, h, hNode, fun other hOther hMeets => ?_⟩
  obtain ⟨shared, hShared, hIn⟩ := hMeets
  -- where a path from a shared node leads, both cycles go on with the same node
  suffices hBoth : ∀ b, TransGen g.DependsOn shared b → b ∈ nodes ∧ b ∈ other from
    (hBoth node (h.transGen_of_mem hShared hNode)).2
  have hStep (a b : String) (hA : a ∈ nodes ∧ a ∈ other) (hEdge : g.DependsOn a b) :
      b ∈ nodes ∧ b ∈ other := by
    obtain ⟨next, hNext, hTo⟩ := h.exists_next hA.1
    obtain ⟨along, hAlong, hGoes⟩ := hOther.exists_next hA.2
    exact ⟨hOnly a hA.1 next b hTo hEdge ▸ hNext, hOnly a hA.1 along b hGoes hEdge ▸ hAlong⟩
  intro b hPath
  induction hPath with
  | single hEdge => exact hStep _ _ ⟨hShared, hIn⟩ hEdge
  | tail _ hEdge ih => exact hStep _ _ ih hEdge

/-- A cycle none of whose nodes is removed stays a cycle. -/
theorem IsCycle.without (h : g.IsCycle nodes) (hLeft : ∀ node ∈ nodes, node ∉ removed) :
    (g.without removed).IsCycle nodes where
  ne_nil := h.ne_nil
  nodup := h.nodup
  chain := h.chain.imp_of_mem_imp fun a b hA hB hEdge =>
    mem_edges_without.mpr ⟨hEdge, hLeft a hA, hLeft b hB⟩
  closes last hLast first hFirst :=
    mem_edges_without.mpr ⟨h.closes last hLast first hFirst,
      hLeft last (List.mem_of_getLast? hLast), hLeft first (List.mem_of_head? hFirst)⟩

end Graph

namespace Plan

variable {files : Graph} {start : List String} {aside : Aside}

theorem mem_names_pairsAside_iff {file : String} :
    file ∈ (pairsAside files.mutualPairs).names ↔ files.IsPaired file := by
  constructor
  · intro hFile
    obtain ⟨⟨a, b⟩, hPair, hEq⟩ := mem_names_pairsAside.mp hFile
    obtain ⟨-, hEdge, hBack⟩ := Graph.mem_mutualPairs.mp hPair
    rcases hEq with rfl | rfl
    · exact ⟨b, hEdge, hBack⟩
    · exact ⟨a, hBack, hEdge⟩
  · rintro ⟨other, hEdge, hBack⟩
    exact fits_pairsAside.pairs file other hEdge hBack

/-- What is set aside beyond the files at the start comes in whole cycles of the others. -/
structure Gathers (files : Graph) (start : List String) (aside : Aside) : Prop where
  starts : start ⊆ aside.names
  cycles : ∀ file ∈ aside.names, file ∈ start ∨
    ∃ nodes, (files.without start).IsCycle nodes ∧ file ∈ nodes ∧ nodes ⊆ aside.names

theorem gathers_names (files : Graph) (aside : Aside) : Gathers files aside.names aside where
  starts := List.Subset.refl _
  cycles _ hFile := .inl hFile

theorem Gathers.round (h : Gathers files start aside) (hFits : Fits files aside) {next : Aside}
    (hRound : Round files aside next) : Gathers files start next := by
  obtain ⟨error, hError, rfl⟩ := hRound
  obtain ⟨nodes, rfl, hCycle⟩ := hFits.exists_cycle hError
  have hGrows : aside.names ⊆ (setAside (.cycle nodes) aside nodes).names :=
    fun file hFile => mem_names_setAside.mpr (.inl hFile)
  refine ⟨List.Subset.trans h.starts hGrows, fun file hFile => ?_⟩
  rcases mem_names_setAside.mp hFile with hOld | hNew
  · rcases h.cycles file hOld with hStart | ⟨other, hOther, hOn, hAll⟩
    · exact .inl hStart
    · exact .inr ⟨other, hOther, hOn, List.Subset.trans hAll hGrows⟩
  · -- the cycle that is met now leaves out all that was set aside, so also what was at the start
    refine .inr ⟨nodes, hCycle.mono fun a b hEdge => ?_, hNew, fun node hNode => ?_⟩
    · obtain ⟨hWhole, hA, hB⟩ := Graph.mem_edges_without.mp hEdge
      exact Graph.mem_edges_without.mpr
        ⟨hWhole, fun hStart => hA (h.starts hStart), fun hStart => hB (h.starts hStart)⟩
    · exact mem_names_setAside.mpr (.inr hNode)

theorem Gathers.rounds (h : Gathers files start aside) (hFits : Fits files aside) {next : Aside}
    (hRounds : ReflTransGen (Round files) aside next) : Gathers files start next := by
  induction hRounds with
  | refl => exact h
  | tail hBefore hRound ih => exact ih.round (hFits.rounds hBefore) hRound

/-- When no cycle is left, a file that every cycle meeting its own goes through was set aside. -/
theorem Gathers.mem_of_isPinned (h : Gathers files start aside)
    (hAcyclic : (files.without aside.names).IsAcyclic) {file : String}
    (hPinned : (files.without start).IsPinned file) : file ∈ aside.names := by
  obtain ⟨nodes, hCycle, -, hMeets⟩ := hPinned
  obtain ⟨taken, hTaken, hAside⟩ : ∃ taken ∈ nodes, taken ∈ aside.names := by
    by_contra hNone
    refine Graph.not_isAcyclic_of_isCycle (hCycle.of_without.without fun node hNode hAside => ?_)
      hAcyclic
    exact hNone ⟨node, hNode, hAside⟩
  rcases h.cycles taken hAside with hStart | ⟨other, hOther, hOn, hAll⟩
  · exact absurd hStart (Graph.mem_nodes_without.mp (hCycle.mem_nodes hTaken)).2
  · exact hAll (hMeets other hOther ⟨taken, hTaken, hOn⟩)

/-- A file that is set aside is on a cycle of the files that were not set aside at the start. -/
theorem Gathers.transGen_of_mem (h : Gathers files start aside) {file : String}
    (hFile : file ∈ aside.names) (hStart : file ∉ start) :
    TransGen (files.without start).DependsOn file file := by
  rcases h.cycles file hFile with hIn | ⟨nodes, hCycle, hOn, -⟩
  · exact absurd hIn hStart
  · exact hCycle.transGen hOn

end Plan

/-! ## Plans -/

namespace Dependencies

/-- The graph of the files of which no two depend on each other. -/
def unpaired (dependencies : Dependencies) : Graph :=
  dependencies.files.without dependencies.pairsAside.names

/-- A file is set aside and not planned if it depends on another one that depends on it, or if,
among the files of which no two depend on each other, every cycle that meets a cycle of its own goes
through it.  A file is planned and not set aside if it is in no pair and on no cycle of those files,
whatever cycles of the whole graph go through it. -/
theorem plan_sets_aside (dependencies : Dependencies) :
    (∀ file, dependencies.files.IsPaired file ∨ dependencies.unpaired.IsPinned file →
      file ∈ dependencies.plan.failed.map Prod.fst ∧ file ∉ dependencies.plan.order) ∧
    ∀ file ∈ dependencies.files.nodes, ¬dependencies.files.IsPaired file →
      ¬TransGen dependencies.unpaired.DependsOn file file →
        file ∈ dependencies.plan.order ∧ file ∉ dependencies.plan.failed.map Prod.fst := by
  obtain ⟨aside, hRounds, hOrder, hFailed⟩ := dependencies.exists_rounds
  obtain ⟨⟨hPerm, -⟩, hAcyclic⟩ := Graph.isDependencyOrder_of_eq_ok hOrder
  have hGathers : Plan.Gathers dependencies.files dependencies.pairsAside.names aside :=
    (Plan.gathers_names _ _).rounds Plan.fits_pairsAside hRounds
  have hPlanned (file : String) : file ∈ dependencies.plan.order ↔
      file ∈ dependencies.files.nodes ∧ file ∉ aside.names := by
    rw [hPerm.mem_iff, ← NameSet.mem_def, Graph.mem_nodes_without]
  have hAside (file : String) :
      file ∈ dependencies.plan.failed.map Prod.fst ↔ file ∈ aside.names := by
    rw [hFailed, Plan.map_ascending, ← NameSet.mem_def, NameSet.mem_ofList]
  constructor
  · intro file hFile
    have hTaken : file ∈ aside.names := by
      rcases hFile with hPaired | hPinned
      · exact hGathers.starts (Plan.mem_names_pairsAside_iff.mpr hPaired)
      · exact hGathers.mem_of_isPinned hAcyclic hPinned
    exact ⟨(hAside file).mpr hTaken, fun hIn => ((hPlanned file).mp hIn).2 hTaken⟩
  · intro file hNode hPaired hCyclic
    have hLeft : file ∉ aside.names := fun hTaken => hCyclic <|
      hGathers.transGen_of_mem hTaken fun hStart =>
        hPaired (Plan.mem_names_pairsAside_iff.mp hStart)
    exact ⟨(hPlanned file).mpr ⟨hNode, hLeft⟩, fun hIn => hLeft ((hAside file).mp hIn)⟩

/-- Four structures: the first three refer to each other in a ring, the last one to the first. -/
def ringTypes : Idl.File where
  filename := "types.x"
  nameSpace := none
  definitions :=
    [.struct ⟨"A", [⟨"b", .named "B", .plain, 1⟩], 1⟩,
      .struct ⟨"B", [⟨"c", .named "C", .plain, 2⟩], 2⟩,
      .struct ⟨"C", [⟨"a", .named "A", .plain, 3⟩], 3⟩,
      .struct ⟨"D", [⟨"a", .named "A", .plain, 4⟩], 4⟩]

/-- The dependencies of these structures, each in a file of its own name. -/
def ring : Dependencies := .ofFiles .same standardBaseline some [ringTypes]

/-- A ring of three files, no two of which depend on each other, is set aside; a file that depends
on it is planned. -/
theorem ring_set_aside :
    (¬ring.files.IsPaired "B" ∧ ring.unpaired.IsPinned "B" ∧
      "B" ∈ ring.plan.failed.map Prod.fst ∧ "B" ∉ ring.plan.order) ∧
    "D" ∈ ring.plan.order ∧ "D" ∉ ring.plan.failed.map Prod.fst := by
  have hWhole : ring.files.edges = [("D", "A"), ("C", "A"), ("B", "C"), ("A", "B")] := by
    decide +kernel
  have hEdges : ring.unpaired.edges = [("D", "A"), ("C", "A"), ("B", "C"), ("A", "B")] := by
    decide +kernel
  have hOneWay : ∀ edge ∈ ring.files.edges, edge.swap ∉ ring.files.edges := by
    rw [hWhole]
    decide
  have hPaired (file : String) : ¬ring.files.IsPaired file :=
    fun ⟨other, hEdge, hBack⟩ => hOneWay (file, other) hEdge hBack
  have hCycle : ring.unpaired.IsCycle ["A", "B", "C"] := by
    refine ⟨by simp, by simp, ?_, ?_⟩
    · simp [Graph.DependsOn, hEdges]
    · simp [Graph.DependsOn, hEdges]
  have hOneNext : ∀ edge ∈ ring.unpaired.edges, ∀ other ∈ ring.unpaired.edges,
      edge.1 = other.1 → edge.2 = other.2 := by
    rw [hEdges]
    decide
  have hPinned : ring.unpaired.IsPinned "B" :=
    hCycle.isPinned (fun a _ b c hB hC => hOneNext (a, b) hB (a, c) hC rfl) (by simp)
  have hBehind : ¬TransGen ring.unpaired.DependsOn "D" "D" := by
    intro hPath
    obtain ⟨before, -, hEdge⟩ := TransGen.tail'_iff.mp hPath
    rw [Graph.DependsOn, hEdges] at hEdge
    simp at hEdge
  have hNode : "D" ∈ ring.files.nodes := (ring.files.closed (b := "A") (by simp [hWhole])).1
  exact ⟨⟨hPaired "B", hPinned, ring.plan_sets_aside.1 "B" (.inr hPinned)⟩,
    ring.plan_sets_aside.2 "D" hNode (hPaired "D") hBehind⟩

/-- Whether every file on a directed cycle is set aside and not planned. -/
def SetsCyclesAside (dependencies : Dependencies) : Prop :=
  ∀ file, TransGen dependencies.files.DependsOn file file →
    file ∈ dependencies.plan.failed.map Prod.fst ∧ file ∉ dependencies.plan.order

/-- Three structures: the first two refer to each other, the second to the third and the third to
the first. -/
def crossingTypes : Idl.File where
  filename := "types.x"
  nameSpace := none
  definitions :=
    [.struct ⟨"A", [⟨"b", .named "B", .plain, 1⟩], 1⟩,
      .struct ⟨"B", [⟨"a", .named "A", .plain, 2⟩, ⟨"c", .named "C", .plain, 2⟩], 2⟩,
      .struct ⟨"C", [⟨"a", .named "A", .plain, 3⟩], 3⟩]

/-- The dependencies of these structures, each in a file of its own name. -/
def crossing : Dependencies := .ofFiles .same standardBaseline some [crossingTypes]

/-- The third file is on a cycle with the other two, but these are set aside as a pair before. -/
theorem cyclic_file_planned : ¬crossing.SetsCyclesAside := by
  intro hSets
  have hEdges : ∀ edge ∈ [("C", "A"), ("A", "B"), ("B", "C")], edge ∈ crossing.files.edges := by
    decide +kernel
  have hCycle : TransGen crossing.files.DependsOn "C" "C" :=
    .tail (.tail (.single (hEdges ("C", "A") (by simp))) (hEdges ("A", "B") (by simp)))
      (hEdges ("B", "C") (by simp))
  exact (hSets "C" hCycle).2 (by decide +kernel)

end Dependencies

end XdrBindings
