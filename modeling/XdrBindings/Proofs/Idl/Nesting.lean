import XdrBindings.Idl.Grammar.Field
import XdrBindings.Proofs.Idl.Declarations

/-!
# The name behind a body

`nameBehind` counts braces and knows nothing of fields.  It passes over fields and arms all the
same, because they close the braces that they open, and so finds the name behind the body that is
read afterwards.

## Main results

* `isLevel_field`, `isLevel_arm` — fields and arms close the braces that they open.
* `nameBehind_of_ahead` — where a body, its brace and a name are ahead, the name is found.
-/

namespace XdrBindings.Idl.Grammar

open scoped Computability

variable {words others items : Language TokenKind} {token : Token} {tokens rest : List Token}

/-! ## Single tokens -/

theorem nameBehind_open (hToken : token.kind = .symbol .openBrace) (depth : Nat) :
    nameBehind depth (token :: rest) = nameBehind (depth + 1) rest := by
  simp [nameBehind, hToken]

theorem nameBehind_close_succ (hToken : token.kind = .symbol .closeBrace) (depth : Nat) :
    nameBehind (depth + 1) (token :: rest) = nameBehind depth rest := by
  simp [nameBehind, hToken]

theorem nameBehind_close_zero (hToken : token.kind = .symbol .closeBrace) :
    nameBehind 0 (token :: rest) = (identifier rest).map Prod.fst := by
  simp [nameBehind, hToken]

theorem nameBehind_of_ne (hOpen : token.kind ≠ .symbol .openBrace)
    (hClose : token.kind ≠ .symbol .closeBrace) (depth : Nat) :
    nameBehind depth (token :: rest) = nameBehind depth rest := by
  simp [nameBehind, hOpen, hClose]

/-! ## Level words -/

/-- The words close the braces that they open, so the name that is looked for stands behind them. -/
def IsLevel (words : Language TokenKind) : Prop :=
  ∀ tokens rest, Takes words tokens rest → ∀ depth, nameBehind depth tokens = nameBehind depth rest

theorem IsLevel.mono (hOthers : IsLevel others) (hWords : words ≤ others) : IsLevel words :=
  fun tokens rest hTakes => hOthers tokens rest (hTakes.mono hWords)

theorem isLevel_iff_singleton : IsLevel words ↔ ∀ word ∈ words, IsLevel {word} := by
  constructor
  · exact fun hWords word hWord => hWords.mono (Set.singleton_subset_iff.mpr hWord)
  · rintro hWords _ rest ⟨front, hFront, rfl⟩
    exact hWords _ hFront _ _ ⟨front, rfl, rfl⟩

theorem isLevel_one : IsLevel 1 := by
  intro tokens rest hTakes depth
  rw [takes_one.mp hTakes]

theorem isLevel_oneOf {kinds : TokenKind → Prop} (hOpen : ¬kinds (.symbol .openBrace))
    (hClose : ¬kinds (.symbol .closeBrace)) : IsLevel (Words.oneOf kinds) := by
  intro tokens rest hTakes depth
  obtain ⟨token, hKind, rfl⟩ := takes_oneOf.mp hTakes
  exact nameBehind_of_ne (fun h => hOpen (h ▸ hKind)) (fun h => hClose (h ▸ hKind)) depth

theorem isLevel_symbol {mark : Symbol} (hOpen : mark ≠ .openBrace) (hClose : mark ≠ .closeBrace) :
    IsLevel (Words.symbol mark) :=
  isLevel_oneOf (by simp [hOpen.symm]) (by simp [hClose.symm])

theorem isLevel_keyword {word : Keyword} : IsLevel (Words.keyword word) :=
  isLevel_oneOf (by simp) (by simp)

theorem isLevel_identifier : IsLevel Words.identifier := isLevel_oneOf (by simp) (by simp)

theorem isLevel_number : IsLevel Words.number := isLevel_oneOf (by simp) (by simp)

theorem IsLevel.add (hWords : IsLevel words) (hOthers : IsLevel others) :
    IsLevel (words + others) := by
  intro tokens rest hTakes
  exact (takes_add.mp hTakes).elim (hWords tokens rest) (hOthers tokens rest)

theorem IsLevel.mul (hWords : IsLevel words) (hOthers : IsLevel others) :
    IsLevel (words * others) := by
  intro tokens rest hTakes depth
  obtain ⟨mid, hWord, hOther⟩ := takes_mul.mp hTakes
  rw [hWords _ _ hWord, hOthers _ _ hOther]

theorem IsLevel.kstar (hWords : IsLevel words) : IsLevel words∗ := by
  have hPow : ∀ count : ℕ, IsLevel (words ^ count) := by
    intro count
    induction count with
    | zero => exact isLevel_one
    | succ count ih =>
      rw [pow_succ]
      exact ih.mul hWords
  intro tokens rest hTakes
  obtain ⟨count, hCount⟩ := takes_kstar.mp hTakes
  exact hPow count tokens rest hCount

/-- Braces around level words are open within them and closed behind them. -/
theorem IsLevel.braced (hItems : IsLevel items) : IsLevel (Words.braced items) := by
  intro tokens rest hTakes depth
  simp only [Words.braced, mul_assoc, takes_mul] at hTakes
  obtain ⟨_, hOpen, behind, hItem, hClose⟩ := hTakes
  obtain ⟨opening, hOpening, rfl⟩ := takes_oneOf.mp hOpen
  obtain ⟨closing, hClosing, rfl⟩ := takes_oneOf.mp hClose
  rw [nameBehind_open hOpening, hItems _ _ hItem, nameBehind_close_succ hClosing]

/-! ## Fields and arms -/

theorem isLevel_size : IsLevel Words.size :=
  isLevel_identifier.add (isLevel_oneOf (by simp) (by simp))

theorem isLevel_suffix : IsLevel Words.suffix := by
  unfold Words.suffix
  apply_rules [isLevel_one, isLevel_symbol, isLevel_size, IsLevel.add, IsLevel.mul] <;> decide

theorem isLevel_declaration : IsLevel Words.declaration := by
  unfold Words.declaration Words.declarator Words.type
  apply_rules [isLevel_one, isLevel_symbol, isLevel_keyword, isLevel_identifier, isLevel_suffix,
    IsLevel.add, IsLevel.mul] <;> decide

theorem isLevel_inlineTail : IsLevel Words.inlineTail :=
  (isLevel_identifier.mul isLevel_suffix).mul (isLevel_symbol (by decide) (by decide))

theorem isLevel_discriminant : IsLevel Words.discriminant := by
  unfold Words.discriminant
  apply_rules [isLevel_symbol, isLevel_keyword, isLevel_identifier, IsLevel.add, IsLevel.mul] <;>
    decide

theorem isLevel_label : IsLevel Words.label := by
  unfold Words.label
  apply_rules [isLevel_symbol, isLevel_keyword, isLevel_identifier, isLevel_number, IsLevel.add,
    IsLevel.mul] <;> decide

theorem isLevel_flatten {parts : List (List TokenKind)} (hParts : ∀ part ∈ parts, IsLevel {part}) :
    IsLevel {parts.flatten} := by
  have hItems : IsLevel ({part | part ∈ parts} : Set (List TokenKind)) :=
    isLevel_iff_singleton.mpr hParts
  exact hItems.kstar.mono (Set.singleton_subset_iff.mpr (Language.join_mem_kstar fun _ => id))

mutual

theorem field_isLevel {word : List TokenKind} : Words.Field word → IsLevel {word}
  | .declared hWord => isLevel_iff_singleton.mp isLevel_declaration _ hWord
  | .struct hFields hWord => by
    have hItems := isLevel_flatten fun part hPart => field_isLevel (hFields part hPart)
    exact isLevel_iff_singleton.mp
      ((isLevel_keyword.mul hItems.braced).mul isLevel_inlineTail) _ hWord
  | .union hArms hWord => by
    have hItems := isLevel_flatten fun part hPart => arm_isLevel (hArms part hPart)
    exact isLevel_iff_singleton.mp
      (((isLevel_keyword.mul isLevel_discriminant).mul hItems.braced).mul isLevel_inlineTail) _
      hWord

theorem arm_isLevel {word : List TokenKind} : Words.Arm word → IsLevel {word}
  | .void hWord => by
    have hVoid : IsLevel (Words.keyword .void * Words.symbol .semicolon) :=
      isLevel_keyword.mul (isLevel_symbol (by decide) (by decide))
    exact isLevel_iff_singleton.mp ((isLevel_label.mul isLevel_label.kstar).mul hVoid) _ hWord
  | .field hContent hWord => by
    have hContents := field_isLevel hContent
    exact isLevel_iff_singleton.mp ((isLevel_label.mul isLevel_label.kstar).mul hContents) _ hWord

end

theorem isLevel_field : IsLevel Words.field := isLevel_iff_singleton.mpr fun _ => field_isLevel

theorem isLevel_arm : IsLevel Words.arm := isLevel_iff_singleton.mpr fun _ => arm_isLevel

/-- Where a level word, a closing brace and the tail of a type written in place are ahead, the name
in the tail is found. -/
theorem nameBehind_of_ahead (hItems : IsLevel items)
    (hAhead : Ahead (items * Words.symbol .closeBrace * Words.inlineTail * others) tokens) :
    ∃ name, nameBehind 0 tokens = .ok name := by
  obtain ⟨rest, hTakes⟩ := hAhead
  simp only [Words.inlineTail, mul_assoc, takes_mul] at hTakes
  obtain ⟨_, hItem, behind, hClose, mid, hName, -⟩ := hTakes
  obtain ⟨closing, hClosing, rfl⟩ := takes_oneOf.mp hClose
  obtain ⟨name, hIdentifier⟩ := identifier_reads.ok_iff.mpr hName
  rw [hItems _ _ hItem, nameBehind_close_zero hClosing, hIdentifier]
  exact ⟨name, rfl⟩

end XdrBindings.Idl.Grammar
