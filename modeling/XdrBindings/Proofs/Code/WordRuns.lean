import Mathlib.Data.List.SplitBy
import XdrBindings.Proofs.Code.OutlineRenamed

/-!
# The words of a text

A word is a maximal run of word characters.  Which words a text has does not depend on what is
code, but a word is renamed only if all of it is code.  `renameWords` renames all words of a text
at once, each by what a function makes of it.  Replacing a name from left to right is the case in
which the function changes that name only.

Renaming keeps the cut into words, so renaming twice is renaming once, word by word.

## Main results

* `wordRuns_induction` — a text goes on with a character of its own or with a whole word.
* `renameWord_eq_renameWords` — replacing a name is renaming all words at once.
* `KeepsWords.renameUnits_renameUnits` — two renamings are one.
-/

namespace XdrBindings.Code

/-! ## Words -/

/-- Whether two neighbours belong to one word. -/
def isOneWord (first second : Char × Region) : Bool :=
  Text.isWord first.1 && Text.isWord second.1

/-- What is read, cut into words and characters between words.  A word goes as far as word
characters stand side by side. -/
def wordRuns (units : List (Char × Region)) : List (List (Char × Region)) :=
  units.splitBy isOneWord

/-- A run as what it is renamed to, if all of it is code. -/
def renameRun (rename : Text → Text) (run : List (Char × Region)) : List (Char × Region) :=
  if run.all (·.2 == .code) then (rename (run.map Prod.fst)).map (·, .code) else run

/-- What is read, with all words of code renamed. -/
def renameUnits (rename : Text → Text) (units : List (Char × Region)) : List (Char × Region) :=
  (wordRuns units).flatMap (renameRun rename)

/-- A text with all words of its code renamed at once. -/
def renameWords (rename : Text → Text) (text : Text) : Text :=
  (renameUnits rename (units text)).map Prod.fst

/-! ## The cut into words -/

section Runs

variable {unit : Char × Region} {run rest : List (Char × Region)}

theorem wordRuns_append {front back : List (Char × Region)}
    (hApart : (∀ unit ∈ front.getLast?, Text.isWord unit.1 = false) ∨
      ∀ unit ∈ back.head?, Text.isWord unit.1 = false) :
    wordRuns (front ++ back) = wordRuns front ++ wordRuns back := by
  refine List.splitBy_append fun first hFirst second hSecond => ?_
  rcases hApart with hLast | hHead
  · rw [isOneWord, hLast first hFirst, Bool.false_and]
  · rw [isOneWord, hHead second hSecond, Bool.and_false]

theorem wordRuns_cons (hUnit : Text.isWord unit.1 = false) :
    wordRuns (unit :: rest) = [unit] :: wordRuns rest := by
  have hApart : ∀ last ∈ [unit].getLast?, Text.isWord last.1 = false :=
    fun _ hLast => Option.some.inj hLast ▸ hUnit
  exact wordRuns_append (.inl hApart)

theorem wordRuns_append_word (hSome : run ≠ []) (hRun : ∀ unit ∈ run, Text.isWord unit.1 = true)
    (hRest : ∀ unit ∈ rest.head?, Text.isWord unit.1 = false) :
    wordRuns (run ++ rest) = run :: wordRuns rest := by
  have hOne : run.IsChain fun first second => isOneWord first second = true := by
    refine (List.pairwise_of_forall_mem_list fun first hFirst second hSecond => ?_).isChain
    rw [isOneWord, hRun first hFirst, hRun second hSecond]
    rfl
  rw [wordRuns_append (.inr hRest), wordRuns, List.splitBy_of_isChain hSome hOne]
  rfl

/-- What is read goes on with a character of its own or with a whole word. -/
theorem wordRuns_induction {motive : List (Char × Region) → Prop} (nil : motive [])
    (single : ∀ unit rest, Text.isWord unit.1 = false → motive rest → motive (unit :: rest))
    (word : ∀ run rest, run ≠ [] → (∀ unit ∈ run, Text.isWord unit.1 = true) →
      (∀ unit ∈ rest.head?, Text.isWord unit.1 = false) → motive rest → motive (run ++ rest))
    (units : List (Char × Region)) : motive units := by
  induction hLength : units.length using Nat.strongRecOn generalizing units with
  | ind length ih =>
    subst hLength
    cases units with
    | nil => exact nil
    | cons unit rest =>
      cases hUnit : Text.isWord unit.1 with
      | false => exact single unit rest hUnit (ih _ (Nat.lt_succ_self _) rest rfl)
      | true =>
        let isWordUnit (unit : Char × Region) : Bool := Text.isWord unit.1
        have hParts := List.takeWhile_append_dropWhile (p := isWordUnit) (l := unit :: rest)
        have hTake : (unit :: rest).takeWhile isWordUnit = unit :: rest.takeWhile isWordUnit :=
          List.takeWhile_cons_of_pos hUnit
        have hShorter : ((unit :: rest).dropWhile isWordUnit).length < (unit :: rest).length := by
          have hSum := congrArg List.length hParts
          rw [List.length_append, hTake, List.length_cons] at hSum
          omega
        rw [← hParts]
        refine word _ _ (by rw [hTake]; exact List.cons_ne_nil _ _) ?_ ?_ (ih _ hShorter _ rfl)
        · exact fun other hOther => List.all_eq_true.mp List.all_takeWhile other hOther
        · intro other hOther
          have hNot := List.head?_dropWhile_not isWordUnit (unit :: rest)
          rw [Option.mem_def.mp hOther] at hNot
          simpa using hNot

end Runs

/-! ## Renaming word by word -/

section Rename

variable {rename : Text → Text} {unit : Char × Region} {run rest : List (Char × Region)}

/-- A function that leaves alone what is no word, and words words. -/
structure KeepsWords (rename : Text → Text) : Prop where
  single : ∀ c, Text.isWord c = false → rename [c] = [c]
  word : ∀ word, word ≠ [] → (∀ c ∈ word, Text.isWord c = true) →
    rename word ≠ [] ∧ ∀ c ∈ rename word, Text.isWord c = true

theorem renameUnits_append {front back : List (Char × Region)}
    (hApart : (∀ unit ∈ front.getLast?, Text.isWord unit.1 = false) ∨
      ∀ unit ∈ back.head?, Text.isWord unit.1 = false) :
    renameUnits rename (front ++ back) = renameUnits rename front ++ renameUnits rename back := by
  rw [renameUnits, wordRuns_append hApart, List.flatMap_append]
  rfl

theorem map_fst_map_code (word : Text) :
    (word.map fun c => (c, Region.code)).map Prod.fst = word := by
  rw [List.map_map]
  exact List.map_id _

/-- A run that is renamed to itself stays. -/
theorem renameRun_eq_self (hSame : rename (run.map Prod.fst) = run.map Prod.fst) :
    renameRun rename run = run := by
  unfold renameRun
  split
  · rename_i hCode
    rw [hSame, List.map_map]
    refine (List.map_congr_left fun unit hUnit => ?_).trans (List.map_id run)
    have hRegion : unit.2 = .code := by simpa using List.all_eq_true.mp hCode unit hUnit
    rw [Function.comp_apply, ← hRegion]
    rfl
  · rfl

theorem renameUnits_cons (hUnit : Text.isWord unit.1 = false) :
    renameUnits rename (unit :: rest) = renameRun rename [unit] ++ renameUnits rename rest := by
  rw [renameUnits, wordRuns_cons hUnit, List.flatMap_cons]
  rfl

theorem renameUnits_append_word (hSome : run ≠ [])
    (hRun : ∀ unit ∈ run, Text.isWord unit.1 = true)
    (hRest : ∀ unit ∈ rest.head?, Text.isWord unit.1 = false) :
    renameUnits rename (run ++ rest) = renameRun rename run ++ renameUnits rename rest := by
  rw [renameUnits, wordRuns_append_word hSome hRun hRest, List.flatMap_cons]
  rfl

/-- Words stay words. -/
theorem KeepsWords.isWord_renameRun (h : KeepsWords rename) (hSome : run ≠ [])
    (hRun : ∀ unit ∈ run, Text.isWord unit.1 = true) :
    renameRun rename run ≠ [] ∧ ∀ unit ∈ renameRun rename run, Text.isWord unit.1 = true := by
  unfold renameRun
  split
  · obtain ⟨hNew, hNewWord⟩ := h.word (run.map Prod.fst) (by simpa using hSome)
      (List.forall_mem_map.mpr hRun)
    exact ⟨by simpa using hNew, List.forall_mem_map.mpr hNewWord⟩
  · exact ⟨hSome, hRun⟩

/-- A character of its own stays. -/
theorem KeepsWords.renameUnits_single (h : KeepsWords rename) (hUnit : Text.isWord unit.1 = false) :
    renameUnits rename (unit :: rest) = unit :: renameUnits rename rest := by
  rw [renameUnits_cons hUnit, renameRun_eq_self (h.single _ hUnit)]
  rfl

theorem KeepsWords.head?_renameUnits (h : KeepsWords rename)
    (hRest : ∀ unit ∈ rest.head?, Text.isWord unit.1 = false) :
    (renameUnits rename rest).head? = rest.head? := by
  cases rest with
  | nil => rfl
  | cons unit rest =>
    rw [h.renameUnits_single (hRest unit rfl)]
    rfl

theorem renameRun_renameRun (first second : Text → Text) (run : List (Char × Region)) :
    renameRun second (renameRun first run) = renameRun (second ∘ first) run := by
  by_cases hCode : run.all (·.2 == .code) = true
  · have hNew : renameRun first run = (first (run.map Prod.fst)).map (·, .code) := if_pos hCode
    rw [hNew, renameRun, renameRun, if_pos hCode, if_pos (by simp), map_fst_map_code]
    rfl
  · have hNew : renameRun first run = run := if_neg hCode
    rw [hNew, renameRun, renameRun, if_neg hCode, if_neg hCode]

/-- What is no code stays. -/
theorem renameUnits_eq_self {units : List (Char × Region)} (h : ∀ unit ∈ units, unit.2 ≠ .code) :
    renameUnits rename units = units := by
  have hRuns : ∀ run ∈ wordRuns units, renameRun rename run = run := by
    intro run hRun
    obtain ⟨unit, hUnit⟩ := List.exists_mem_of_ne_nil run (List.ne_nil_of_mem_splitBy hRun)
    refine if_neg fun hCode => h unit ?_ (by simpa using List.all_eq_true.mp hCode unit hUnit)
    rw [← List.flatten_splitBy isOneWord units]
    exact List.mem_flatten.mpr ⟨run, hRun, hUnit⟩
  rw [renameUnits, List.flatMap_def, List.map_congr_left hRuns, List.map_id']
  exact List.flatten_splitBy isOneWord units

/-- Renaming twice is renaming once, where the first one keeps words. -/
theorem KeepsWords.renameUnits_renameUnits {first : Text → Text} (hFirst : KeepsWords first)
    (second : Text → Text) (units : List (Char × Region)) :
    renameUnits second (renameUnits first units) = renameUnits (second ∘ first) units := by
  induction units using wordRuns_induction with
  | nil => rfl
  | single unit rest hUnit ih =>
    have hSame : renameRun first [unit] = [unit] := renameRun_eq_self (hFirst.single _ hUnit)
    rw [hFirst.renameUnits_single hUnit, renameUnits_cons hUnit, renameUnits_cons hUnit,
      ih, ← renameRun_renameRun, hSame]
  | word run rest hSome hRun hRest ih =>
    -- the word that is written reaches as far as the one that is read
    obtain ⟨hNewSome, hNewRun⟩ := hFirst.isWord_renameRun hSome hRun
    have hNewRest : ∀ unit ∈ (renameUnits first rest).head?, Text.isWord unit.1 = false := by
      rw [hFirst.head?_renameUnits hRest]
      exact hRest
    rw [renameUnits_append_word hSome hRun hRest, renameUnits_append_word hSome hRun hRest,
      renameUnits_append_word hNewSome hNewRun hNewRest, ih, renameRun_renameRun]

end Rename

/-! ## Replacing a name -/

section Replace

variable {old new : Text} {before : Option Char} {run rest : List (Char × Region)}

theorem replaceWords_keep (keep : Nat) (before : Option Char) (units : List (Char × Region)) :
    replaceWords old new 0 keep before units =
      (units.take keep).map Prod.fst ++ replaceWords old new 0 0
        (((units.take keep).map Prod.fst).getLast?.or before) (units.drop keep) := by
  induction keep generalizing before units with
  | zero => rfl
  | succ keep ih =>
    cases units with
    | nil => rfl
    | cons unit rest =>
      rw [replaceWords, ih, List.take_succ_cons, List.drop_succ_cons, List.map_cons,
        List.cons_append, List.getLast?_cons, Option.or_some]
      rfl

/-- Within a word nothing is replaced. -/
theorem replaceWords_append_word (hOld : IsPlainWord old)
    (hRun : ∀ unit ∈ run, Text.isWord unit.1 = true) (hBefore : before.any Text.isWord = true) :
    replaceWords old new 0 0 before (run ++ rest) = run.map Prod.fst ++
      replaceWords old new 0 0 ((run.map Prod.fst).getLast?.or before) rest := by
  induction run generalizing before with
  | nil => rfl
  | cons unit run ih =>
    obtain ⟨hUnit, hMore⟩ := List.forall_mem_cons.mp hRun
    have hNone : isWordAhead old before (unit :: (run ++ rest)) = false := by
      rw [← Bool.not_eq_true, isWordAhead_iff]
      rintro ⟨back, -, hBoundary, -⟩
      rw [hOld.isBoundary_eq_false hBefore] at hBoundary
      cases hBoundary
    rw [List.cons_append, replaceWords, hNone, if_neg (by decide),
      ih hMore (Option.any_some.trans hUnit), List.map_cons, List.cons_append,
      List.getLast?_cons, Option.or_some]
    rfl

/-- Where a word begins, the name stands there if it is the word. -/
theorem isWordAhead_append_word (hOld : IsPlainWord old) (hSome : run ≠ [])
    (hRun : ∀ unit ∈ run, Text.isWord unit.1 = true)
    (hRest : ∀ unit ∈ rest.head?, Text.isWord unit.1 = false)
    (hBefore : before.any Text.isWord = false) :
    isWordAhead old before (run ++ rest) = true ↔ run.map Prod.fst = old := by
  have hChars : ∀ c ∈ run.map Prod.fst, Text.isWord c = true := List.forall_mem_map.mpr hRun
  have hRestChars : ∀ c ∈ (rest.map Prod.fst).head?, Text.isWord c = false := by
    cases rest with
    | nil => nofun
    | cons unit rest => exact fun c hc => Option.some.inj hc ▸ hRest unit rfl
  rw [isWordAhead_iff, List.map_append]
  constructor
  · rintro ⟨back, hText, -, hAfter⟩
    have hBack := hOld.isWord_eq_false_of_isBoundary hAfter
    rw [← Text.takeWhile_append_of_head hChars hRestChars, hText,
      Text.takeWhile_append_of_head hOld.isWord hBack]
  · rintro rfl
    have hNext : (rest.map Prod.fst).head?.any Text.isWord = false := by
      cases hHead : (rest.map Prod.fst).head? with
      | none => rfl
      | some c => exact hRestChars c hHead
    have hFirst : (run.map Prod.fst).head?.any Text.isWord = true := by
      obtain ⟨unit, run, rfl⟩ := List.exists_cons_of_ne_nil hSome
      exact hChars unit.1 List.mem_cons_self
    refine ⟨_, rfl, ?_, ?_⟩
    · rw [Text.isBoundary, hBefore, hFirst]
      rfl
    · rw [Text.isBoundary, hOld.any_getLast?, hNext]
      rfl

/-- A whole word is replaced at once, or passed over. -/
theorem replaceWords_word (hOld : IsPlainWord old) (hSome : run ≠ [])
    (hRun : ∀ unit ∈ run, Text.isWord unit.1 = true)
    (hRest : ∀ unit ∈ rest.head?, Text.isWord unit.1 = false)
    (hBefore : before.any Text.isWord = false) :
    replaceWords old new 0 0 before (run ++ rest) =
      (renameRun (renamedName old new) run).map Prod.fst ++
        replaceWords old new 0 0 (run.map Prod.fst).getLast? rest := by
  have hAhead := isWordAhead_append_word hOld hSome hRun hRest hBefore
  obtain ⟨unit, more, rfl⟩ := List.exists_cons_of_ne_nil hSome
  obtain ⟨hUnit, hMore⟩ := List.forall_mem_cons.mp hRun
  have hLast : (more.map Prod.fst).getLast?.or (some unit.1) =
      ((unit :: more).map Prod.fst).getLast? := by
    rw [List.map_cons, List.getLast?_cons, Option.or_some]
  rw [List.cons_append] at hAhead ⊢
  rw [replaceWords]
  by_cases hEq : (unit :: more).map Prod.fst = old
  · have hLength : old.length - 1 = more.length := by simp [← hEq]
    have hCode : isCodeAhead old.length (unit :: (more ++ rest)) =
        (unit :: more).all (·.2 == .code) := by
      rw [isCodeAhead, ← List.cons_append, List.take_left' (by simp [← hEq])]
    rw [if_pos (hAhead.mpr hEq), hCode, renameRun, hEq, renamedName, if_pos rfl, hLength]
    split
    · rw [replaceWords_drop _ _ _ (by simp), List.take_left, List.drop_left, hLast, hEq,
        map_fst_map_code]
    · rw [replaceWords_keep, List.take_left, List.drop_left, hLast, ← List.cons_append,
        ← List.map_cons, hEq]
  · have hSame : renameRun (renamedName old new) (unit :: more) = unit :: more :=
      renameRun_eq_self (if_neg hEq)
    rw [if_neg (mt hAhead.mp hEq), hSame,
      replaceWords_append_word hOld hMore (Option.any_some.trans hUnit), hLast]
    rfl

/-- Replacing a name from left to right renames all words at once. -/
theorem replaceWords_eq (hOld : IsPlainWord old) {before : Option Char}
    {units : List (Char × Region)}
    (hBefore : before.any Text.isWord = false ∨ ∀ unit ∈ units.head?, Text.isWord unit.1 = false) :
    replaceWords old new 0 0 before units =
      (renameUnits (renamedName old new) units).map Prod.fst := by
  induction units using wordRuns_induction generalizing before with
  | nil => rfl
  | single unit rest hUnit ih =>
    have hNot : unit.1 ∉ old := hOld.not_mem_of_isWord hUnit
    obtain ⟨c, name, rfl⟩ := List.exists_cons_of_ne_nil hOld.ne_nil
    have hNone : isWordAhead (c :: name) before (unit :: rest) = false := by
      rw [← Bool.not_eq_true, isWordAhead_iff]
      rintro ⟨back, hText, -, -⟩
      obtain ⟨rfl, -⟩ := List.cons.inj hText
      exact hNot List.mem_cons_self
    have hSame : renamedName (c :: name) new [unit.1] = [unit.1] := by
      refine if_neg fun hEq => hNot ?_
      rw [← hEq]
      exact List.mem_singleton_self _
    rw [replaceWords, hNone, if_neg (by decide), ih (.inl (Option.any_some.trans hUnit)),
      renameUnits_cons hUnit, renameRun_eq_self hSame]
    rfl
  | word run rest hSome hRun hRest ih =>
    have hStart : before.any Text.isWord = false := by
      refine hBefore.resolve_right fun hNone => ?_
      obtain ⟨unit, more, rfl⟩ := List.exists_cons_of_ne_nil hSome
      exact absurd (hRun unit List.mem_cons_self) (by rw [hNone unit rfl]; decide)
    rw [replaceWords_word hOld hSome hRun hRest hStart, ih (.inr hRest),
      renameUnits_append_word hSome hRun hRest, List.map_append]

/-- Replacing a name in a text renames all words of its code at once. -/
theorem renameWord_eq_renameWords (hOld : IsPlainWord old) (text : Text) :
    renameWord old new text = renameWords (renamedName old new) text := by
  obtain ⟨c, name, rfl⟩ := List.exists_cons_of_ne_nil hOld.ne_nil
  exact replaceWords_eq hOld (.inl rfl)

end Replace

end XdrBindings.Code
