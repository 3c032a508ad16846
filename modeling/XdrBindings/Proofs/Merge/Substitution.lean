import XdrBindings.Proofs.Code.RenamedPieces
import XdrBindings.Proofs.Merge.Carried
import XdrBindings.Proofs.Merge.ClassNames

/-!
# The renames of a merge as one substitution

Renames are carried out one after the other, each in the text that the ones before it have
written.  Every rename puts the same beginning in front of a name.  Where no name that is
replaced has that beginning, no rename finds what another one has written, so all of them
together replace each word of code at most once, whatever their order is.

## Main results

* `renameAll_eq_renameWords` — renames one after the other as one renaming of words.
* `renameAll_together` — renames that put a beginning in front of names that lack it.
* `Style.carryOver_substitutes` — what is written for the classes that are carried over.
-/

namespace XdrBindings.Merge

open Code

/-! ## Renames together -/

/-- Whether old and new names are words that do not make a string raw. -/
def ArePlainWords (renames : List (Text × Text)) : Prop :=
  ∀ rename ∈ renames, (IsPlainWord rename.1 ∧ rename.1 ≠ ['r']) ∧
    (IsPlainWord rename.2 ∧ rename.2 ≠ ['r'])

theorem renameWords_id (text : Text) : renameWords id text = text := by
  have hRuns : (wordRuns (units text)).map (renameRun id) = wordRuns (units text) :=
    (List.map_congr_left fun _ _ => renameRun_eq_self rfl).trans (List.map_id _)
  rw [renameWords, renameUnits, List.flatMap_def, hRuns, wordRuns, List.flatten_splitBy,
    units_chars]

/-- Renames one after the other rename each word as they rename it alone. -/
theorem renameAll_eq_renameWords {renames : List (Text × Text)} (hPlain : ArePlainWords renames)
    (text : Text) : renameAll renames text = renameWords (renamedBy renames) text := by
  induction renames generalizing text with
  | nil => exact (renameWords_id text).symm
  | cons rename rest ih =>
    obtain ⟨⟨⟨hOld, hOldRaw⟩, hNew, hNewRaw⟩, hRest⟩ := List.forall_mem_cons.mp hPlain
    have hKeeps := keepsReading_renamedName hOld hOldRaw hNew hNewRaw
    calc renameAll (rename :: rest) text
        = renameAll rest (renameWord rename.1 rename.2 text) := rfl
      _ = renameWords (renamedBy rest) (renameWords (renamedName rename.1 rename.2) text) := by
        rw [ih hRest, renameWord_eq_renameWords hOld]
      _ = renameWords (renamedBy rest ∘ renamedName rename.1 rename.2) text := by
        rw [renameWords, units_renameWords hKeeps, hKeeps.renameUnits_renameUnits]
        rfl
      _ = renameWords (renamedBy (rename :: rest)) text := rfl

section Start

variable {renames others : List (Text × Text)} {start : Text}

theorem renamedBy_eq_ite (hNew : ∀ rename ∈ renames, rename.2 = start ++ rename.1)
    (hOnce : ∀ rename ∈ renames, start ++ rename.1 ∉ renames.map Prod.fst) (name : Text) :
    renamedBy renames name =
      if name ∈ renames.map Prod.fst then start ++ name else name := by
  split
  · rename_i hMem
    obtain ⟨rename, hRename, rfl⟩ := List.mem_map.mp hMem
    exact renamedBy_of_mem hNew (hOnce rename hRename) hMem
  · rename_i hNot
    exact renamedBy_of_not_mem hNot

/-- Renames that put a beginning in front of names, and write no name that is replaced, replace
all names at once.  Their order does not matter. -/
theorem renameAll_together (hPlain : ArePlainWords renames)
    (hNew : ∀ rename ∈ renames, rename.2 = start ++ rename.1)
    (hOnce : ∀ rename ∈ renames, start ++ rename.1 ∉ renames.map Prod.fst)
    (hOthers : others.Perm renames) (text : Text) :
    renameAll others text = renameWords (fun word =>
      if word ∈ renames.map Prod.fst then start ++ word else word) text := by
  have hMem {name : Text} : name ∈ others.map Prod.fst ↔ name ∈ renames.map Prod.fst :=
    (hOthers.map Prod.fst).mem_iff
  have hBoth : renamedBy others = fun word =>
      if word ∈ renames.map Prod.fst then start ++ word else word := by
    funext word
    rw [renamedBy_eq_ite (fun rename h => hNew rename (hOthers.mem_iff.mp h))
      fun rename h => mt hMem.mp (hOnce rename (hOthers.mem_iff.mp h))]
    simp only [hMem]
  rw [renameAll_eq_renameWords fun rename h => hPlain rename (hOthers.mem_iff.mp h), hBoth]

end Start

/-! ## The names that are replaced -/

namespace Style

variable {style : Style} {carried : List OldClass} {found : List ClassDecl} {word : Text}

/-- Whether a word is replaced where classes are carried over: it is the name of one of them and
lacks the beginning of generated names, or it begins with a capital letter and a generated class
has it as its name behind that beginning. -/
def IsReplaced (style : Style) (carried : List OldClass) (found : List ClassDecl)
    (word : Text) : Prop :=
  (word ∈ carried.map (fun old => old.decl.name) ∧ word.startsWith style.classStart = false) ∨
    (style.classStart ++ word ∈ found.map ClassDecl.name ∧
      word.head?.any Char.isUpper = true)

instance : Decidable (style.IsReplaced carried found word) :=
  inferInstanceAs (Decidable (_ ∨ _))

/-- What is replaced are the old names of the renames. -/
theorem mem_renames_iff :
    word ∈ (style.renames carried found).map Prod.fst ↔ style.IsReplaced carried found word := by
  rw [renames, List.map_append, List.mem_append, mem_carriedRenames_iff,
    mem_generatedRenames_iff]
  rfl

/-- No name that is replaced has the beginning that is put in front of it. -/
theorem IsReplaced.startsWith_eq_false
    (hOnce : ∀ base, style.classStart ++ base ∈ found.map ClassDecl.name →
      base.startsWith style.classStart = false)
    (h : style.IsReplaced carried found word) : word.startsWith style.classStart = false := by
  rcases h with ⟨-, hStarts⟩ | ⟨hMem, -⟩
  · exact hStarts
  · exact hOnce word hMem

theorem isPlainWord_append (hLetters : ∀ c ∈ style.classStart, c.isAlpha = true)
    (h : IsPlainWord word) : IsPlainWord (style.classStart ++ word) := by
  obtain ⟨⟨hSome, hName⟩, hDollar⟩ := isPlainWord_iff.mp h
  refine isPlainWord_iff.mpr ⟨⟨?_, fun c hc => ?_⟩, fun hc => ?_⟩
  · exact fun hNil => hSome (List.append_eq_nil_iff.mp hNil).2
  · rcases List.mem_append.mp hc with hFront | hBack
    · unfold isNameChar Char.isAlphanum
      rw [hLetters c hFront]
      rfl
    · exact hName c hBack
  · rcases List.mem_append.mp hc with hFront | hBack
    · cases hLetters '$' hFront
    · exact hDollar hBack

theorem append_ne_raw (hSome : style.classStart ≠ []) (hWord : word ≠ []) :
    style.classStart ++ word ≠ ['r'] := by
  intro hEq
  have hLength := congrArg List.length hEq
  have hStart := List.length_pos_iff.mpr hSome
  have hMore := List.length_pos_iff.mpr hWord
  rw [List.length_append, List.length_singleton] at hLength
  omega

/-- The renames of a merge replace words by words. -/
theorem arePlainWords_renames (hSome : style.classStart ≠ [])
    (hLetters : ∀ c ∈ style.classStart, c.isAlpha = true)
    (hCarried : ∀ old ∈ carried,
      IsName old.decl.name ∧ '$' ∉ old.decl.name ∧ old.decl.name ≠ ['r'])
    (hFound : ∀ decl ∈ found, IsName decl.name)
    (hDollar : ∀ base, style.classStart ++ base ∈ found.map ClassDecl.name → '$' ∉ base) :
    ArePlainWords (style.renames carried found) := by
  intro rename hRename
  have hOld : IsPlainWord rename.1 ∧ rename.1 ≠ ['r'] := by
    rcases mem_renames_iff.mp (List.mem_map_of_mem hRename) with ⟨hMem, -⟩ | ⟨hMem, hUpper⟩
    · obtain ⟨old, hOld, hName⟩ := List.mem_map.mp hMem
      obtain ⟨hIsName, hNoDollar, hRaw⟩ := hCarried old hOld
      rw [← hName]
      exact ⟨isPlainWord_iff.mpr ⟨hIsName, hNoDollar⟩, hRaw⟩
    · obtain ⟨decl, hDecl, hName⟩ := List.mem_map.mp hMem
      have hIsName := hFound decl hDecl
      rw [hName] at hIsName
      refine ⟨isPlainWord_iff.mpr ⟨⟨?_, fun c hc => ?_⟩, hDollar _ hMem⟩, ?_⟩
      · intro hNil
        rw [hNil] at hUpper
        cases hUpper
      · exact hIsName.2 c (List.mem_append_right _ hc)
      · intro hRaw
        rw [hRaw] at hUpper
        cases hUpper
  refine ⟨hOld, ?_⟩
  rw [snd_of_mem_renames hRename]
  exact ⟨isPlainWord_append hLetters hOld.1, append_ne_raw hSome hOld.1.ne_nil⟩

/-- Behind a text, classes are carried over with each word of their code that is replaced written
with the beginning of generated names, all at once.  What is written is not replaced again, and
the renames may be carried out in any order. -/
theorem carryOver_substitutes {text existing : Text} {decls : List ClassDecl}
    (hSome : style.classStart ≠ []) (hLetters : ∀ c ∈ style.classStart, c.isAlpha = true)
    (hExisting : classesOf existing = .ok decls) (hFound : classesOf text = .ok found)
    (hCarried : ∀ old ∈ carried,
      old.decl ∈ decls ∧ '$' ∉ old.decl.name ∧ old.decl.name ≠ ['r'])
    (hBase : ∀ base, style.classStart ++ base ∈ found.map ClassDecl.name →
      '$' ∉ base ∧ base.startsWith style.classStart = false) :
    ∃ sources block, sources = Text.join ['\n', '\n']
        (carried.map fun old => old.decl.source existing) ∧
      block = renameWords (fun word =>
        if style.IsReplaced carried found word then style.classStart ++ word else word) sources ∧
      style.carryOver text existing carried = .ok (Text.trimEnd text ++ ['\n', '\n'] ++
        style.carriedLabel ++ ['\n'] ++ block ++ ['\n']) ∧
      (∀ word, ¬style.IsReplaced carried found (style.classStart ++ word)) ∧
      ∀ renames, renames.Perm (style.renames carried found) →
        renameAll renames sources = block := by
  have hPlain : ArePlainWords (style.renames carried found) :=
    arePlainWords_renames hSome hLetters
      (fun old hOld => ⟨isName_name hExisting (hCarried old hOld).1, (hCarried old hOld).2⟩)
      (fun decl hDecl => isName_name hFound hDecl) fun base hMem => (hBase base hMem).1
  have hAgain (word : Text) : ¬style.IsReplaced carried found (style.classStart ++ word) := by
    intro hReplaced
    have hStarts := hReplaced.startsWith_eq_false fun base hMem => (hBase base hMem).2
    rw [Text.startsWith, List.isPrefixOf_iff_prefix.mpr (List.prefix_append _ _)] at hStarts
    cases hStarts
  have hAll {renames : List (Text × Text)} (hPerm : renames.Perm (style.renames carried found))
      (sources : Text) : renameAll renames sources = renameWords (fun word =>
        if style.IsReplaced carried found word then style.classStart ++ word else word)
          sources := by
    rw [renameAll_together hPlain (fun rename => snd_of_mem_renames)
      (fun rename _ => mt mem_renames_iff.mp (hAgain rename.1)) hPerm]
    simp only [mem_renames_iff]
  refine ⟨_, _, rfl, rfl, ?_, hAgain, fun renames hPerm => hAll hPerm _⟩
  rw [← hAll (List.Perm.refl _)]
  exact carryOver_eq_ok_iff.mpr ⟨found, hFound, rfl⟩

/-- Two classes, one of them with a generated name already and the other with a field of a
generated class. -/
theorem carryOver_substitutes_two :
    ∃ text existing carried found, text = "class XdrKey \x7b\n\x7d\n".toList ∧
      existing = "class A \x7b\n  Key k; // Key\n  A a;\n\x7d\nclass XdrB \x7b\x7d\n".toList ∧
      carried = [⟨⟨['A'], 0, 8, 33, 1⟩, []⟩, ⟨⟨"XdrB".toList, 35, 46, 47, 5⟩, []⟩] ∧
      found = [⟨"XdrKey".toList, 0, 13, 15, 1⟩] ∧
      ∃ sources block, sources = Text.join ['\n', '\n']
          (carried.map fun old => old.decl.source existing) ∧
        block = renameWords (fun word => if standard.IsReplaced carried found word
          then standard.classStart ++ word else word) sources ∧
        standard.carryOver text existing carried = .ok (Text.trimEnd text ++ ['\n', '\n'] ++
          standard.carriedLabel ++ ['\n'] ++ block ++ ['\n']) ∧
        (∀ word, ¬standard.IsReplaced carried found (standard.classStart ++ word)) ∧
        ∀ renames, renames.Perm (standard.renames carried found) →
          renameAll renames sources = block := by
  refine ⟨_, _, _, _, rfl, rfl, rfl, rfl, ?_⟩
  rw [String.toList_ofList, String.toList_ofList]
  refine carryOver_substitutes (by decide) (by decide)
    (by decide +kernel : classesOf _ = .ok [⟨['A'], 0, 8, 33, 1⟩, ⟨"XdrB".toList, 35, 46, 47, 5⟩])
    (by decide +kernel) (by decide +kernel) fun base hMem => ?_
  have hName : standard.classStart ++ base = standard.classStart ++ "Key".toList :=
    List.mem_singleton.mp hMem
  rw [List.append_cancel_left hName]
  decide

end Style

end XdrBindings.Merge
