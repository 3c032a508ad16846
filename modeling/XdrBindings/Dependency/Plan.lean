import XdrBindings.Dependency.Basic

/-!
# Plans for imports

The files of a dependency graph are written with dependencies first. Files that are
met on a cycle are set aside, each with the first error that names it: first the pairs
that depend on each other, then, while the files left still have no order, the cycle
that stands in the way. What is left is planned.

## Main statements

* `length_setAside`: setting files aside never frees one.
-/

namespace XdrBindings

/-- The files that are planned, in order, with their imports, and the files set aside. -/
structure Plan where
  order : List String
  imports : List (String × NameSet)
  failed : List (String × Graph.OrderError)

namespace Plan

/-- Files set aside, each with the first error that names it. -/
abbrev Aside := List (String × Graph.OrderError)

/-- Sets files aside unless they are already. -/
def setAside (error : Graph.OrderError) (aside : Aside) (files : List String) : Aside :=
  files.foldl (fun aside file =>
    if (aside.lookup file).isSome then aside else aside ++ [(file, error)]) aside

theorem length_setAside (error : Graph.OrderError) (aside : Aside) (files : List String) :
    aside.length ≤ (setAside error aside files).length := by
  unfold setAside
  induction files generalizing aside with
  | nil => exact Nat.le_refl _
  | cons file rest ih =>
    rw [List.foldl_cons]
    refine Nat.le_trans ?_ (ih _)
    split
    · exact Nat.le_refl _
    · simp

/-- The pairs of files that depend on each other, set aside. -/
def pairsAside (pairs : List (String × String)) : Aside :=
  pairs.foldl (fun aside (a, b) => setAside (.mutual [(a, b)]) aside [a, b]) []

/-- Orders the files that are left, setting more aside while there is no order. Each
round but the last sets a file aside, so `bound` rounds are enough where it exceeds
the number of files. -/
def settle (files : Graph) : (bound : Nat) → Aside → List String × Aside
  | 0, aside => ([], aside)
  | bound + 1, aside =>
    match (files.without (aside.map Prod.fst)).dependencyOrder with
    | .ok order => (order, aside)
    | .error error =>
      let next := setAside error aside error.nodes
      if next.length = aside.length then ([], aside) else settle files bound next

/-- The files set aside, in ascending order. -/
def ascending (aside : Aside) : List (String × Graph.OrderError) :=
  (NameSet.ofList (aside.map Prod.fst)).toList.filterMap fun file =>
    (aside.lookup file).map fun error => (file, error)

end Plan

/-- The plan for the files of a dependency graph. -/
def Dependencies.plan (dependencies : Dependencies) : Plan :=
  let files := dependencies.files
  let (order, aside) :=
    Plan.settle files (files.nodeCount + 1) (Plan.pairsAside files.mutualPairs)
  { order
    imports := order.map fun file => (file, dependencies.importSet file)
    failed := Plan.ascending aside }

end XdrBindings
