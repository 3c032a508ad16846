import XdrBindings.Proofs.Idl.Printer

/-!
# Types written in place among the definitions

A definition holds the types written in place for its fields, and these may hold others.  Listed in
front of the definition that holds them, every one of them stands in front of everything around it.

## Main results

* `Definition.held_induction` — induction over the types written in place.
* `heldBefore_unfolded` — in the list for a definition each entry stands behind those that it holds.
* `HeldBefore.held_subset_of_encloses` — so it stands behind all that is written in place within it.
* `mem_inlined_iff` — nothing else is listed.
-/

namespace XdrBindings.Idl

variable {definition outer inner entry node : Definition} {entries before after : List Definition}

namespace Definition

/-! ## Fields -/

/-- The fields of a structure, and the contents of the arms of a union. -/
def fields : Definition → List Field
  | .struct declared => declared.fields
  | .union declared => declared.arms.filterMap Arm.content
  | _ => []

theorem held_eq (definition : Definition) :
    definition.held = definition.fields.filterMap fun field => field.type.definition? := by
  cases definition with
  | union declared => simp only [held, fields, List.filterMap_filterMap]
  | _ => rfl

theorem mem_held_iff : node ∈ definition.held ↔
    ∃ field ∈ definition.fields, field.type.definition? = some node := by
  rw [held_eq, List.mem_filterMap]

/-- A type written in place is smaller than the field that it is written for. -/
theorem sizeOf_lt_of_definition? {field : Field} (h : field.type.definition? = some node) :
    sizeOf node < sizeOf field := by
  obtain ⟨name, type, shape, line⟩ := field
  cases type <;> cases h <;> simp <;> omega

theorem sizeOf_lt_of_mem_fields {field : Field} (h : field ∈ definition.fields) :
    sizeOf field < sizeOf definition := by
  cases definition with
  | struct declared =>
    obtain ⟨name, fields, line⟩ := declared
    have hField := List.sizeOf_lt_of_mem (show field ∈ fields from h)
    simp
    omega
  | union declared =>
    obtain ⟨name, switch, arms, line⟩ := declared
    obtain ⟨⟨labels, content, inner⟩, hArm, hContent⟩ := List.mem_filterMap.mp h
    obtain rfl : content = some field := hContent
    have hSize := List.sizeOf_lt_of_mem (show _ ∈ arms from hArm)
    simp at hSize ⊢
    omega
  | _ => cases h

theorem sizeOf_lt_of_mem_held (h : node ∈ definition.held) : sizeOf node < sizeOf definition := by
  obtain ⟨field, hField, hNode⟩ := mem_held_iff.mp h
  exact (sizeOf_lt_of_definition? hNode).trans (sizeOf_lt_of_mem_fields hField)

/-- Induction over the types written in place. -/
@[elab_as_elim]
theorem held_induction {motive : Definition → Prop}
    (step : ∀ definition, (∀ node ∈ definition.held, motive node) → motive definition)
    (definition : Definition) : motive definition :=
  step definition fun node _ => held_induction step node
termination_by sizeOf definition
decreasing_by exact sizeOf_lt_of_mem_held ‹_›

/-- Whether a definition is another one or written in place somewhere within it. -/
inductive Encloses (outer : Definition) : Definition → Prop
  | self : Encloses outer outer
  | held {inner node : Definition} (hInner : Encloses outer inner) (hNode : node ∈ inner.held) :
      Encloses outer node

theorem Encloses.trans (hInner : outer.Encloses inner) (h : inner.Encloses node) :
    outer.Encloses node := by
  induction h with
  | self => exact hInner
  | held _ hNode ih => exact .held ih hNode

theorem Encloses.of_held (hInner : inner ∈ outer.held) (h : inner.Encloses node) :
    outer.Encloses node := .trans (.held .self hInner) h

end Definition

/-! ## The order of entries -/

/-- Each entry of a list stands behind those that it holds. -/
inductive HeldBefore : List Definition → Prop
  | nil : HeldBefore []
  | concat {entries : List Definition} {entry : Definition} (hEntries : HeldBefore entries)
      (hHeld : entry.held ⊆ entries) : HeldBefore (entries ++ [entry])

namespace HeldBefore

theorem append {others : List Definition} (hEntries : HeldBefore entries)
    (hOthers : HeldBefore others) : HeldBefore (entries ++ others) := by
  induction hOthers with
  | nil => rwa [List.append_nil]
  | concat hOthers hHeld ih =>
    rw [← List.append_assoc]
    exact ih.concat fun node hNode => List.mem_append_right _ (hHeld hNode)

theorem flatMap {α : Type} {parts : List α} {part : α → List Definition}
    (h : ∀ item ∈ parts, HeldBefore (part item)) : HeldBefore (parts.flatMap part) := by
  induction parts with
  | nil => exact .nil
  | cons item parts ih =>
    obtain ⟨hItem, hParts⟩ := List.forall_mem_cons.mp h
    exact hItem.append (ih hParts)

theorem held_subset (h : HeldBefore entries) (hSplit : entries = before ++ entry :: after) :
    entry.held ⊆ before := by
  induction h generalizing after with
  | nil => simp at hSplit
  | concat hEntries hHeld ih =>
    rcases after.eq_nil_or_concat with rfl | ⟨others, last, rfl⟩
    · obtain ⟨rfl, hLast⟩ := List.append_inj' hSplit rfl
      obtain rfl := List.singleton_inj.mp hLast
      exact hHeld
    · rw [List.concat_eq_append, ← List.cons_append, ← List.append_assoc] at hSplit
      exact ih (List.append_inj' hSplit rfl).1

/-- Whatever is written in place somewhere within an entry stands before it. -/
theorem held_subset_of_encloses (h : HeldBefore entries)
    (hSplit : entries = before ++ entry :: after) (hInner : entry.Encloses inner) :
    inner.held ⊆ before := by
  induction hInner with
  | self => exact h.held_subset hSplit
  | held _ hNode ih =>
    obtain ⟨front, back, rfl⟩ := List.append_of_mem (ih hNode)
    rw [List.append_assoc, List.cons_append] at hSplit
    exact List.Subset.trans (h.held_subset hSplit) (List.subset_append_left _ _)

end HeldBefore

theorem heldBefore_unfolded (definition : Definition) : HeldBefore definition.unfolded := by
  induction definition using Definition.held_induction with
  | step definition ih =>
    rw [Definition.unfolded_eq]
    refine (HeldBefore.flatMap ih).concat fun node hNode => ?_
    refine List.mem_flatMap.mpr ⟨node, hNode, ?_⟩
    exact List.mem_append_right _ (List.mem_singleton_self _)

/-- The list for a definition holds just what is written in place within it, and the definition. -/
theorem mem_unfolded_iff : entry ∈ definition.unfolded ↔ definition.Encloses entry := by
  constructor
  · intro h
    induction definition using Definition.held_induction with
    | step definition ih =>
      rw [Definition.unfolded_eq] at h
      rcases List.mem_append.mp h with hHeld | hSelf
      · obtain ⟨node, hNode, hEntry⟩ := List.mem_flatMap.mp hHeld
        exact .of_held hNode (ih node hNode hEntry)
      · obtain rfl := List.mem_singleton.mp hSelf
        exact .self
  · intro h
    induction h with
    | self => exact List.mem_append_right _ (List.mem_singleton_self _)
    | held _ hNode ih =>
      obtain ⟨before, after, hSplit⟩ := List.append_of_mem ih
      rw [hSplit]
      exact List.mem_append_left _ ((heldBefore_unfolded definition).held_subset hSplit hNode)

/-- What is listed in front of a definition is what is written in place somewhere within it. -/
theorem mem_inlined_iff : entry ∈ definition.inlined ↔
    ∃ enclosing, definition.Encloses enclosing ∧ entry ∈ enclosing.held := by
  have hInlined : definition.inlined = definition.held.flatMap Definition.unfolded :=
    List.append_cancel_right definition.unfolded_eq
  rw [hInlined, List.mem_flatMap]
  constructor
  · rintro ⟨node, hNode, hEntry⟩
    cases mem_unfolded_iff.mp hEntry with
    | self => exact ⟨definition, .self, hNode⟩
    | held hInner hHeld => exact ⟨_, .of_held hNode hInner, hHeld⟩
  · rintro ⟨enclosing, hEnclosing, hEntry⟩
    induction hEnclosing generalizing entry with
    | self => exact ⟨entry, hEntry, mem_unfolded_iff.mpr .self⟩
    | held _ hNode ih =>
      obtain ⟨node, hHeld, hInner⟩ := ih hNode
      exact ⟨node, hHeld, mem_unfolded_iff.mpr (.held (mem_unfolded_iff.mp hInner) hEntry)⟩

end XdrBindings.Idl
