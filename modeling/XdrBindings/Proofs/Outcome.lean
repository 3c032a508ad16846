/-!
# Computations that may fail

A computation that gives a value has given one at each of its steps.  A list of computations gives a
list of values if each of them gives one, and the first error otherwise.

## Main results

* `bind_eq_ok_iff` — a step that fails ends the computation.
* `mapM_id_eq_ok_iff` — a list of computations that all succeed.
* `mapM_id_concat_error` — the first failure is the result.
-/

namespace XdrBindings

variable {ε α β : Type}

/-- A step that fails ends the computation. -/
theorem bind_eq_ok_iff {first : Except ε α} {next : α → Except ε β} {last : β} :
    first >>= next = .ok last ↔ ∃ value, first = .ok value ∧ next value = .ok last := by
  cases first with
  | error refusal => exact iff_of_false nofun nofun
  | ok value =>
    constructor
    · intro h
      exact ⟨value, rfl, h⟩
    · rintro ⟨other, hOther, h⟩
      obtain rfl := Except.ok.inj hOther
      exact h

theorem eq_ok_of_mem_toOption {result : Except ε α} {value : α} (h : value ∈ result.toOption) :
    result = .ok value := by
  cases result with
  | error _ => cases h
  | ok other => exact congrArg Except.ok (Option.some.inj h)

theorem mapM_id_map_ok (values : List α) :
    (values.map (Except.ok : α → Except ε α)).mapM id = .ok values := by
  induction values with
  | nil => rfl
  | cons value rest ih =>
    rw [List.map_cons, List.mapM_cons, ih]
    rfl

/-- Values in front of a list of computations stand in front of its values. -/
theorem mapM_id_map_ok_append (values : List α) (results : List (Except ε α)) :
    ((values.map .ok : List (Except ε α)) ++ results).mapM id =
      (results.mapM id).map (values ++ ·) := by
  induction values with
  | nil => cases h : results.mapM id <;> simp [h, Except.map]
  | cons value rest ih =>
    rw [List.map_cons, List.cons_append, List.mapM_cons, ih]
    cases results.mapM id <;> rfl

/-- Computations that all succeed. -/
theorem mapM_id_eq_ok_iff {results : List (Except ε α)} {values : List α} :
    results.mapM id = .ok values ↔ results = values.map .ok := by
  refine ⟨fun h => ?_, fun h => h ▸ mapM_id_map_ok values⟩
  induction results generalizing values with
  | nil =>
    obtain rfl : [] = values := Except.ok.inj h
    rfl
  | cons result rest ih =>
    rw [List.mapM_cons] at h
    obtain ⟨value, hValue, h⟩ := bind_eq_ok_iff.mp h
    obtain ⟨others, hOthers, h⟩ := bind_eq_ok_iff.mp h
    obtain rfl : value :: others = values := Except.ok.inj h
    rw [ih hOthers, show result = .ok value from hValue]
    rfl

/-- The first failure is the result. -/
theorem mapM_id_concat_error (values : List α) (fault : ε) :
    (values.map .ok ++ [.error fault] : List (Except ε α)).mapM id = .error fault := by
  induction values with
  | nil => rfl
  | cons value rest ih =>
    rw [List.map_cons, List.cons_append, List.mapM_cons, ih]
    rfl

end XdrBindings
