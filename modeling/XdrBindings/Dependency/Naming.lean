/-!
# Names of classes

A type of the interface language is generated as a class. Any rule may give the class its
name. Two rules are at hand: the class has the name of the type, or that name behind a fixed
beginning unless it begins so already.

## Main statements

* `withBeginning_withBeginning`: naming a class name again changes nothing.
-/

namespace XdrBindings

/-- How types become classes. -/
structure Naming where
  /-- The class name of a type. -/
  className : String → String

/-- The name with a given beginning, which is not written twice. -/
def withBeginning (start name : String) : String :=
  if start.toList.isPrefixOf name.toList then name else start ++ name

/-- Class names begin with `start`. -/
def Naming.beginning (start : String) : Naming := ⟨withBeginning start⟩

/-- Class names are type names. -/
def Naming.same : Naming := ⟨fun name => name⟩

/-- Class names begin with `Xdr` where nothing else is asked for. -/
def Naming.standard : Naming := .beginning "Xdr"

theorem withBeginning_withBeginning (start name : String) :
    withBeginning start (withBeginning start name) = withBeginning start name := by
  unfold withBeginning
  by_cases h : start.toList.isPrefixOf name.toList
  · simp [h]
  · simp [h, String.toList_append]

end XdrBindings
