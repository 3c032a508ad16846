import Mathlib.Data.List.Basic
import Mathlib.Logic.Relation
import XdrBindings.Idl.Resolution

/-!
# Symbol tables that are closed under references

A reference gives its own name the number of its symbol.  The closure of a table repeats this until
a pass closes no reference.  What it adds comes from chains of references, and since the last pass
has found no symbol of an open reference, every chain that ends in the table is followed.

## Main results

* `exists_chain_of_lookup_closure` — a number in the closure stands at the end of a chain.
* `isSome_lookup_closure_iff` — a name is in the closure if and only if a chain leads from it into
  the table.
-/

namespace XdrBindings.Idl.SymbolTable

open Relation

variable {table : SymbolTable} {links : Links}

/-- Whether a reference leads from a name to a symbol. -/
def LinksTo (links : Links) (name symbol : String) : Prop := (name, symbol) ∈ links

/-- Whether a chain of references leads from a name to one that the table has a number for. -/
def ChainTo (table : SymbolTable) (links : Links) (name : String) (number : Int) : Prop :=
  ∃ last, ReflTransGen (LinksTo links) name last ∧ table.lookup last = some number

theorem lookup_extend_eq (added : String) (number : Int) (name : String) :
    (table.extend added number).lookup name =
      (table.lookup name).or (if name = added then some number else none) := by
  unfold extend
  split
  · rename_i hKnown
    obtain ⟨known, hLookup⟩ := Option.isSome_iff_exists.mp hKnown
    split
    · rename_i hSame
      rw [hSame, hLookup]
      rfl
    · exact (Option.or_none).symm
  · rw [lookup_append]
    congr 1
    by_cases hSame : name = added
    · simp [hSame]
    · have hOther : (name == added) = false := beq_eq_false_iff_ne.mpr hSame
      simp [List.lookup_cons, hOther, hSame]

/-! ## Chains behind the numbers -/

/-- Whether every number of a grown table stands at the end of a chain. -/
def IsTraced (table : SymbolTable) (links : Links) (grown : SymbolTable) : Prop :=
  ∀ name number, grown.lookup name = some number → ChainTo table links name number

theorem isTraced_self (table : SymbolTable) (links : Links) : IsTraced table links table :=
  fun name _ hLookup => ⟨name, .refl, hLookup⟩

theorem IsTraced.extend {grown : SymbolTable} (h : IsTraced table links grown)
    {name symbol : String} {number : Int} (hLink : (name, symbol) ∈ links)
    (hNumber : grown.lookup symbol = some number) :
    IsTraced table links (grown.extend name number) := by
  intro other value hLookup
  rw [lookup_extend_eq] at hLookup
  rcases Option.or_eq_some_iff.mp hLookup with hOld | ⟨-, hNew⟩
  · exact h other value hOld
  · split at hNew
    · rename_i hSame
      obtain rfl := Option.some.inj hNew
      obtain ⟨last, hChain, hLast⟩ := h symbol number hNumber
      exact ⟨last, .head (hSame ▸ hLink) hChain, hLast⟩
    · cases hNew

theorem IsTraced.pass {grown : SymbolTable} (h : IsTraced table links grown) {part : Links}
    (hPart : part ⊆ links) : IsTraced table links (grown.pass part).1 := by
  induction part generalizing grown with
  | nil => exact h
  | cons link rest ih =>
    obtain ⟨hLink, hRest⟩ := List.cons_subset.mp hPart
    rw [SymbolTable.pass]
    split
    · rename_i number hNumber
      exact ih (h.extend hLink hNumber) hRest
    · exact ih h hRest

theorem pass_sublist (table : SymbolTable) (links : Links) :
    (table.pass links).2.Sublist links := by
  induction links generalizing table with
  | nil => exact List.Sublist.refl _
  | cons link rest ih =>
    rw [pass]
    split
    · exact (ih _).cons _
    · exact (ih _).cons_cons _

theorem IsTraced.close {grown : SymbolTable} (h : IsTraced table links grown) {bound : Nat}
    {part : Links} (hPart : part ⊆ links) :
    IsTraced table links (SymbolTable.close bound grown part) := by
  induction bound generalizing grown part with
  | zero => exact h
  | succ bound ih =>
    unfold SymbolTable.close
    dsimp only
    split
    · exact h.pass hPart
    · exact ih (h.pass hPart) (List.Subset.trans (pass_sublist grown part).subset hPart)

theorem exists_chain_of_lookup_closure {name : String} {number : Int}
    (h : (table.closure links).lookup name = some number) : ChainTo table links name number :=
  (isTraced_self table links).close (List.Subset.refl links) name number h

/-! ## Chains that are followed -/

/-- What a pass closes has a number then. -/
theorem mem_pass_or {name symbol : String} (h : (name, symbol) ∈ links) :
    (name, symbol) ∈ (table.pass links).2 ∨ ((table.pass links).1.lookup name).isSome = true := by
  induction links generalizing table with
  | nil => cases h
  | cons link rest ih =>
    rw [pass]
    split
    · rename_i number hNumber
      rcases List.mem_cons.mp h with rfl | hRest
      · right
        have hAdded :
            (table.extend name number).lookup name = some ((table.lookup name).getD number) := by
          rw [lookup_extend_eq, if_pos rfl]
          cases table.lookup name <;> rfl
        rw [lookup_pass rest hAdded]
        rfl
      · exact ih hRest
    · rcases List.mem_cons.mp h with rfl | hRest
      · exact .inl List.mem_cons_self
      · exact (ih hRest).imp (List.mem_cons_of_mem _) id

/-- A pass that closes nothing has found no symbol. -/
theorem pass_eq_self (h : (table.pass links).2.length = links.length) :
    (table.pass links).1 = table ∧ ∀ link ∈ links, table.lookup link.2 = none := by
  induction links generalizing table with
  | nil => exact ⟨rfl, nofun⟩
  | cons link rest ih =>
    rw [pass] at h ⊢
    split at h
    · rename_i number hNumber
      have hShort := (pass_sublist (table.extend link.1 number) rest).length_le
      rw [h, List.length_cons] at hShort
      omega
    · rename_i hNone
      obtain ⟨hSame, hRest⟩ := ih (by simpa using h)
      exact ⟨hSame, List.forall_mem_cons.mpr ⟨hNone, hRest⟩⟩

theorem isSome_lookup_close {bound : Nat} (hBound : links.length ≤ bound) {name symbol : String}
    (hLink : (name, symbol) ∈ links)
    (hSymbol : ((close bound table links).lookup symbol).isSome = true) :
    ((close bound table links).lookup name).isSome = true := by
  induction bound generalizing table links with
  | zero =>
    rw [List.length_eq_zero_iff.mp (Nat.le_zero.mp hBound)] at hLink
    cases hLink
  | succ bound ih =>
    unfold close at hSymbol ⊢
    dsimp only at hSymbol ⊢
    split at hSymbol
    · rename_i hLength
      obtain ⟨hSame, hNone⟩ := pass_eq_self hLength
      rw [hSame, hNone _ hLink] at hSymbol
      cases hSymbol
    · rename_i hLength
      rw [if_neg hLength]
      have hShort := (pass_sublist table links).length_le
      have hPass : (name, symbol) ∈ (table.pass links).2 ∨
          ((table.pass links).1.lookup name).isSome = true := mem_pass_or hLink
      rcases hPass with hLeft | hKnown
      · exact ih (by omega) hLeft hSymbol
      · obtain ⟨number, hNumber⟩ := Option.isSome_iff_exists.mp hKnown
        rw [lookup_close hNumber]
        rfl

theorem isSome_lookup_closure_iff {name : String} :
    ((table.closure links).lookup name).isSome = true ↔
      ∃ number, ChainTo table links name number := by
  constructor
  · intro hKnown
    obtain ⟨number, hNumber⟩ := Option.isSome_iff_exists.mp hKnown
    exact ⟨number, exists_chain_of_lookup_closure hNumber⟩
  · rintro ⟨number, last, hChain, hLast⟩
    induction hChain using ReflTransGen.head_induction_on with
    | refl =>
      rw [lookup_closure links hLast]
      rfl
    | head hLink _ ih => exact isSome_lookup_close (Nat.le_refl _) hLink ih

end XdrBindings.Idl.SymbolTable
