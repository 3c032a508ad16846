import XdrBindings.Dependency.Plan
import XdrBindings.Proofs.Graph.Order

/-!
# Plans set aside cycles and nothing else

The loop of a plan sets files aside until the files left have an order.  `Plan.Fits` says what holds
of the files set aside so far: each of them lies on a directed cycle of the whole graph, which its
error names, and no two files that depend on each other are left.  So what stands in the way of an
order is a longer cycle among the files left, which is one of the whole graph too.  None of its
files was set aside before, and therefore every round sets more aside and the loop ends.

## Main results

* `Plan.Fits.round` — a round sets the files of a cycle aside, and at least one of them is new.
* `Plan.exists_settle` — the loop ends with an order of the files left.
* `Dependencies.plan_partitions` — a file is planned or set aside, and only with a cycle.
-/

namespace XdrBindings

open Relation

namespace Plan

/-- The files that are set aside. -/
def Aside.names (aside : Aside) : List String := aside.map Prod.fst

theorem lookup_isSome_iff {aside : Aside} {file : String} :
    (aside.lookup file).isSome = true ↔ file ∈ aside.names := by
  simp [Aside.names, List.lookup_isSome_iff]

theorem setAside_cons (error : Graph.OrderError) (aside : Aside) (file : String)
    (files : List String) : setAside error aside (file :: files) =
      setAside error (if file ∈ aside.names then aside else aside ++ [(file, error)]) files := by
  unfold setAside
  rw [List.foldl_cons]
  simp only [lookup_isSome_iff]

/-! ## What is known of the files set aside -/

/-- Whether an error names one directed cycle, with the file on it. -/
def NamesCycle (files : Graph) (file : String) : Graph.OrderError → Prop
  | .mutual pairs => ∃ a b, pairs = [(a, b)] ∧ files.IsCycle [a, b] ∧ file ∈ [a, b]
  | .cycle nodes => files.IsCycle nodes ∧ file ∈ nodes

/-- The cycle that an error names goes through the file. -/
theorem NamesCycle.transGen {files : Graph} {file : String} {error : Graph.OrderError}
    (h : NamesCycle files file error) : TransGen files.DependsOn file file := by
  cases error with
  | «mutual» pairs =>
    obtain ⟨a, b, -, hCycle, hFile⟩ := h
    exact hCycle.transGen hFile
  | cycle nodes => exact h.1.transGen h.2

/-- Distinct files, each set aside with an error that names a cycle that it is on. -/
structure IsBlamed (files : Graph) (aside : Aside) : Prop where
  nodup : aside.names.Nodup
  names : ∀ entry ∈ aside, NamesCycle files entry.1 entry.2

variable {files : Graph} {aside : Aside}

theorem IsBlamed.mem_nodes (h : IsBlamed files aside) {file : String} (hFile : file ∈ aside.names) :
    file ∈ files.nodes := by
  obtain ⟨entry, hEntry, rfl⟩ := List.mem_map.mp hFile
  exact Graph.mem_nodes_of_transGen (h.names entry hEntry).transGen

theorem IsBlamed.length_le (h : IsBlamed files aside) : aside.length ≤ files.nodeCount := by
  have hShort := Graph.length_le_nodeCount h.nodup fun _ hFile => h.mem_nodes hFile
  rwa [Aside.names, List.length_map] at hShort

/-- Setting aside the files of a cycle. -/
theorem IsBlamed.setAside (h : IsBlamed files aside) {error : Graph.OrderError}
    {names : List String} (hNames : ∀ file ∈ names, NamesCycle files file error) :
    IsBlamed files (setAside error aside names) := by
  induction names generalizing aside with
  | nil => exact h
  | cons file rest ih =>
    rw [setAside_cons]
    refine ih ?_ fun other hOther => hNames other (List.mem_cons_of_mem _ hOther)
    split
    · exact h
    · rename_i hNew
      constructor
      · rw [Aside.names, List.map_append]
        exact List.nodup_append_comm.mp (List.nodup_cons.mpr ⟨hNew, h.nodup⟩)
      · intro entry hEntry
        rcases List.mem_append.mp hEntry with hOld | hLast
        · exact h.names entry hOld
        · rw [List.mem_singleton.mp hLast]
          exact hNames file List.mem_cons_self

theorem mem_names_setAside {error : Graph.OrderError} {names : List String} {file : String} :
    file ∈ (setAside error aside names).names ↔ file ∈ aside.names ∨ file ∈ names := by
  induction names generalizing aside with
  | nil => simp [setAside]
  | cons first rest ih =>
    rw [setAside_cons, ih, List.mem_cons]
    split
    · rename_i hOld
      constructor
      · rintro (h | h)
        · exact .inl h
        · exact .inr (.inr h)
      · rintro (h | rfl | h)
        · exact .inl h
        · exact .inl hOld
        · exact .inr h
    · simp only [Aside.names, List.map_append, List.map_cons, List.map_nil, List.mem_append,
        List.mem_singleton, or_assoc]

theorem prefix_setAside (error : Graph.OrderError) (aside : Aside) (names : List String) :
    aside <+: setAside error aside names := by
  induction names generalizing aside with
  | nil => exact List.prefix_refl _
  | cons first rest ih =>
    rw [setAside_cons]
    refine List.IsPrefix.trans ?_ (ih _)
    split
    · exact List.prefix_refl _
    · exact List.prefix_append _ _

/-- Where one of the files is new, setting them aside makes the list longer. -/
theorem length_lt_setAside {error : Graph.OrderError} {names : List String} {file : String}
    (hFile : file ∈ names) (hNew : file ∉ aside.names) :
    aside.length < (setAside error aside names).length := by
  refine Nat.lt_of_le_of_ne (length_setAside error aside names) fun hEq => ?_
  have hSame := (prefix_setAside error aside names).eq_of_length hEq
  have hMem : file ∈ (setAside error aside names).names := mem_names_setAside.mpr (.inr hFile)
  rw [← hSame] at hMem
  exact hNew hMem

/-! ## Pairs -/

theorem isCycle_pair {a b : String} (hEdge : files.DependsOn a b) (hBack : files.DependsOn b a) :
    files.IsCycle [a, b] where
  ne_nil := List.cons_ne_nil _ _
  nodup := by simpa using files.loopless hEdge
  chain := List.isChain_pair.mpr hEdge
  closes last hLast first hFirst := by
    obtain rfl : b = last := by simpa using hLast
    obtain rfl : a = first := by simpa using hFirst
    exact hBack

/-- The pairs are set aside, each with itself as the cycle. -/
theorem isBlamed_pairsAside : IsBlamed files (pairsAside files.mutualPairs) := by
  have hAll (pairs : List (String × String)) (hPairs : ∀ pair ∈ pairs, pair ∈ files.mutualPairs)
      (aside : Aside) (h : IsBlamed files aside) : IsBlamed files (pairs.foldl (fun aside pair =>
        setAside (.mutual [(pair.1, pair.2)]) aside [pair.1, pair.2]) aside) := by
    induction pairs generalizing aside with
    | nil => exact h
    | cons pair rest ih =>
      obtain ⟨-, hEdge, hBack⟩ := Graph.mem_mutualPairs.mp (hPairs pair List.mem_cons_self)
      refine ih (fun other hOther => hPairs other (List.mem_cons_of_mem _ hOther)) _ ?_
      exact h.setAside fun file hFile => ⟨_, _, rfl, isCycle_pair hEdge hBack, hFile⟩
  exact hAll _ (fun _ hPair => hPair) [] ⟨List.nodup_nil, nofun⟩

theorem mem_names_pairsAside {pairs : List (String × String)} {file : String} :
    file ∈ (pairsAside pairs).names ↔ ∃ pair ∈ pairs, file = pair.1 ∨ file = pair.2 := by
  have hAll (aside : Aside) : file ∈ (pairs.foldl (fun aside pair =>
      setAside (.mutual [(pair.1, pair.2)]) aside [pair.1, pair.2]) aside).names ↔
        file ∈ aside.names ∨ ∃ pair ∈ pairs, file = pair.1 ∨ file = pair.2 := by
    induction pairs generalizing aside with
    | nil => simp
    | cons pair rest ih =>
      rw [List.foldl_cons, ih, mem_names_setAside]
      simp [or_assoc]
  refine (hAll []).trans ?_
  simp [Aside.names]

/-! ## Rounds -/

/-- What the loop keeps: every file set aside is on the cycle that its error names, and of two
files that depend on each other none is left. -/
structure Fits (files : Graph) (aside : Aside) : Prop extends IsBlamed files aside where
  pairs : ∀ a b, files.DependsOn a b → files.DependsOn b a → a ∈ aside.names

theorem fits_pairsAside : Fits files (pairsAside files.mutualPairs) where
  toIsBlamed := isBlamed_pairsAside
  pairs a b hEdge hBack := by
    rw [mem_names_pairsAside]
    by_cases hLt : a < b
    · exact ⟨(a, b), Graph.mem_mutualPairs.mpr ⟨hLt, hEdge, hBack⟩, .inl rfl⟩
    · have hGt := NameSet.lt_of_not_lt_of_ne hLt (files.loopless hEdge)
      exact ⟨(b, a), Graph.mem_mutualPairs.mpr ⟨hGt, hBack, hEdge⟩, .inr rfl⟩

/-- One round of the loop: the files left have no order, and the files of the error are set
aside. -/
def Round (files : Graph) (aside next : Aside) : Prop :=
  ∃ error, (files.without aside.names).dependencyOrder = .error error ∧
    next = setAside error aside error.nodes

/-- What stands in the way of an order of the files left is a cycle of them. -/
theorem Fits.exists_cycle (h : Fits files aside) {error : Graph.OrderError}
    (hError : (files.without aside.names).dependencyOrder = .error error) :
    ∃ nodes, error = .cycle nodes ∧ (files.without aside.names).IsCycle nodes := by
  have hNone (a b : String) (hEdge : (files.without aside.names).DependsOn a b) :
      ¬(files.without aside.names).DependsOn b a := by
    intro hBack
    obtain ⟨hWhole, hLeft, -⟩ := Graph.mem_edges_without.mp hEdge
    exact hLeft (h.pairs a b hWhole (Graph.mem_edges_without.mp hBack).1)
  rcases Graph.dependencyOrder_of_not_mutual hNone with ⟨order, hOrder⟩ | ⟨nodes, hSearch, hCycle⟩
  · rw [hOrder] at hError
    cases hError
  · obtain rfl := Except.error.inj (hCycle.symm.trans hError)
    exact ⟨nodes, rfl, Graph.isCycle_of_cycle?_eq_some hSearch⟩

theorem Fits.round (h : Fits files aside) {next : Aside} (hRound : Round files aside next) :
    Fits files next ∧ aside.length < next.length := by
  obtain ⟨error, hError, rfl⟩ := hRound
  obtain ⟨nodes, rfl, hCycle⟩ := h.exists_cycle hError
  have hBlamed : IsBlamed files (setAside (.cycle nodes) aside nodes) :=
    h.toIsBlamed.setAside fun file hFile => ⟨hCycle.of_without, hFile⟩
  obtain ⟨first, rest, hNodes⟩ := List.exists_cons_of_ne_nil hCycle.ne_nil
  have hFirst : first ∈ nodes := hNodes ▸ List.mem_cons_self
  have hNew := (Graph.mem_nodes_without.mp (hCycle.mem_nodes hFirst)).2
  refine ⟨⟨hBlamed, fun a b hEdge hBack => ?_⟩, length_lt_setAside hFirst hNew⟩
  exact mem_names_setAside.mpr (.inl (h.pairs a b hEdge hBack))

theorem Fits.rounds (h : Fits files aside) {next : Aside}
    (hRounds : ReflTransGen (Round files) aside next) : Fits files next := by
  induction hRounds with
  | refl => exact h
  | tail _ hRound ih => exact (ih.round hRound).1

/-- The loop ends with an order of the files left. -/
theorem exists_settle (h : Fits files aside) {bound : Nat}
    (hBound : files.nodeCount < aside.length + bound) :
    ∃ order final, settle files bound aside = (order, final) ∧
      ReflTransGen (Round files) aside final ∧
        (files.without final.names).dependencyOrder = .ok order := by
  induction bound generalizing aside with
  | zero =>
    have hShort := h.toIsBlamed.length_le
    omega
  | succ bound ih =>
    rw [settle]
    split
    · rename_i order hOrder
      exact ⟨order, aside, rfl, .refl, hOrder⟩
    · rename_i error hError
      have hRound : Round files aside (setAside error aside error.nodes) := ⟨error, hError, rfl⟩
      obtain ⟨hNext, hLonger⟩ := h.round hRound
      rw [if_neg hLonger.ne']
      obtain ⟨order, final, hSettle, hRounds, hOrder⟩ := ih hNext (by omega)
      exact ⟨order, final, hSettle, .head hRound hRounds, hOrder⟩

/-! ## The files set aside as they are listed -/

theorem map_ascending (aside : Aside) :
    (ascending aside).map Prod.fst = (NameSet.ofList aside.names).toList := by
  have hAll (names : List String) (hNames : ∀ file ∈ names, file ∈ aside.names) :
      (names.filterMap fun file => (aside.lookup file).map fun error => (file, error)).map
        Prod.fst = names := by
    induction names with
    | nil => rfl
    | cons file rest ih =>
      obtain ⟨error, hError⟩ := Option.isSome_iff_exists.mp
        (lookup_isSome_iff.mpr (hNames file List.mem_cons_self))
      rw [List.filterMap_cons_some (by rw [hError]; rfl), List.map_cons,
        ih fun other hOther => hNames other (List.mem_cons_of_mem _ hOther)]
  exact hAll _ fun file hFile => NameSet.mem_ofList.mp hFile

theorem mem_of_mem_ascending {entry : String × Graph.OrderError} (h : entry ∈ ascending aside) :
    entry ∈ aside := by
  obtain ⟨file, -, hEntry⟩ := List.mem_filterMap.mp h
  obtain ⟨error, hError, rfl⟩ := Option.map_eq_some_iff.mp hEntry
  obtain ⟨front, back, rfl, -⟩ := List.lookup_eq_some_iff.mp hError
  simp

end Plan

/-! ## Plans -/

/-- The files that a plan begins its rounds with. -/
def Dependencies.pairsAside (dependencies : Dependencies) : Plan.Aside :=
  Plan.pairsAside dependencies.files.mutualPairs

/-- A plan comes from rounds that end with an order of the files left. -/
theorem Dependencies.exists_rounds (dependencies : Dependencies) :
    ∃ aside, ReflTransGen (Plan.Round dependencies.files) dependencies.pairsAside aside ∧
      (dependencies.files.without aside.names).dependencyOrder = .ok dependencies.plan.order ∧
        dependencies.plan.failed = Plan.ascending aside := by
  have hBound : dependencies.files.nodeCount <
      dependencies.pairsAside.length + (dependencies.files.nodeCount + 1) := by omega
  obtain ⟨order, aside, hSettle, hRounds, hOrder⟩ :=
    Plan.exists_settle Plan.fits_pairsAside hBound
  refine ⟨aside, hRounds, ?_, ?_⟩
  · unfold plan
    dsimp only
    rw [hSettle]
    exact hOrder
  · unfold plan
    dsimp only
    rw [hSettle]

/-- The rounds of a plan end with an order of the files left, and every round before sets a file
aside.  Each file is planned or set aside, once.  Planned files come after the planned files that
they depend on and have their import sets; a file set aside is on the directed cycle that its error
names, so a file on no cycle is planned. -/
theorem Dependencies.plan_partitions (dependencies : Dependencies) :
    (∃ aside, ReflTransGen (Plan.Round dependencies.files) dependencies.pairsAside aside ∧
      (dependencies.files.without aside.names).dependencyOrder = .ok dependencies.plan.order) ∧
    (∀ aside next, ReflTransGen (Plan.Round dependencies.files) dependencies.pairsAside aside →
      Plan.Round dependencies.files aside next → aside.length < next.length) ∧
    (dependencies.plan.order ++ dependencies.plan.failed.map Prod.fst).Perm
      dependencies.files.nodes.toList ∧
    (∀ a ∈ dependencies.plan.order, ∀ b ∈ dependencies.plan.order,
      dependencies.files.DependsOn a b →
        dependencies.plan.order.idxOf b < dependencies.plan.order.idxOf a) ∧
    (∀ entry ∈ dependencies.plan.failed,
      Plan.NamesCycle dependencies.files entry.1 entry.2) ∧
    (∀ file ∈ dependencies.files.nodes,
      ¬TransGen dependencies.files.DependsOn file file → file ∈ dependencies.plan.order) ∧
    dependencies.plan.imports.map Prod.fst = dependencies.plan.order ∧
    ∀ entry ∈ dependencies.plan.imports, entry.2 = dependencies.importSet entry.1 := by
  obtain ⟨aside, hRounds, hOrder, hFailed⟩ := dependencies.exists_rounds
  have hStart : Plan.Fits dependencies.files dependencies.pairsAside := Plan.fits_pairsAside
  have hFits := hStart.rounds hRounds
  obtain ⟨hPerm, hAfter⟩ := (Graph.isDependencyOrder_of_eq_ok hOrder).1
  have hPlanned (file : String) : file ∈ dependencies.plan.order ↔
      file ∈ dependencies.files.nodes ∧ file ∉ aside.names := by
    rw [hPerm.mem_iff, ← NameSet.mem_def, Graph.mem_nodes_without]
  have hNames : dependencies.plan.failed.map Prod.fst = (NameSet.ofList aside.names).toList := by
    rw [hFailed, Plan.map_ascending]
  have hCycles (entry : String × Graph.OrderError) (hEntry : entry ∈ dependencies.plan.failed) :
      Plan.NamesCycle dependencies.files entry.1 entry.2 := by
    rw [hFailed] at hEntry
    exact hFits.names entry (Plan.mem_of_mem_ascending hEntry)
  refine ⟨⟨aside, hRounds, hOrder⟩, ?_, ?_, ?_, hCycles, ?_, ?_, ?_⟩
  · intro before next hBefore hRound
    exact ((hStart.rounds hBefore).round hRound).2
  · rw [hNames]
    refine (List.perm_ext_iff_of_nodup ?_ (NameSet.toList_nodup _)).mpr fun file => ?_
    · refine (hPerm.nodup_iff.mpr (NameSet.toList_nodup _)).append (NameSet.toList_nodup _) ?_
      intro file hIn hOut
      exact ((hPlanned file).mp hIn).2 (NameSet.mem_ofList.mp hOut)
    · rw [List.mem_append, hPlanned, ← NameSet.mem_def, NameSet.mem_ofList, ← NameSet.mem_def]
      constructor
      · rintro (⟨hNode, -⟩ | hAside)
        · exact hNode
        · exact hFits.mem_nodes hAside
      · intro hNode
        by_cases hAside : file ∈ aside.names
        · exact .inr hAside
        · exact .inl ⟨hNode, hAside⟩
  · intro a hA b hB hEdge
    refine hAfter a b (Graph.mem_edges_without.mpr ⟨hEdge, ?_, ?_⟩)
    · exact ((hPlanned a).mp hA).2
    · exact ((hPlanned b).mp hB).2
  · intro file hNode hNoCycle
    refine (hPlanned file).mpr ⟨hNode, fun hAside => ?_⟩
    obtain ⟨entry, hEntry, rfl⟩ := List.mem_map.mp hAside
    exact hNoCycle (hFits.names entry hEntry).transGen
  · simp [plan, Function.comp_def]
  · intro entry hEntry
    obtain ⟨file, -, rfl⟩ := List.mem_map.mp hEntry
    rfl

end XdrBindings
