import XdrBindings.Merge.Basic
import XdrBindings.Proofs.Code.OutlineRenamed

/-!
# Renaming twice

A word that is replaced stands nowhere in the code of what is written, unless it is written in
place of another one.  So renames that write no word that they replace change nothing when they
are carried out once more.

## Main results

* `CodeRenamed.lacksWord` — which words are gone behind a rename.
* `renameAll_renameAll` — renames that are carried out once more change nothing.
-/

namespace XdrBindings.Code

/-- `LacksWord word reader before text` says that `word` is no word in the code of `text`, which
the reader reads behind the character `before`. -/
inductive LacksWord (word : Text) : Reader → Option Char → Text → Prop
  | nil {reader : Reader} {before : Option Char} : LacksWord word reader before []
  | cons {reader : Reader} {before : Option Char} {c : Char} {rest : Text} :
    (∀ back, c :: rest = word ++ back → Text.isBoundary before word.head? = true →
      Text.isBoundary word.getLast? back.head? = true → ¬reader.IsInCode) →
    LacksWord word (reader.step c rest).1 (some c) rest →
    LacksWord word reader before (c :: rest)

section

variable {old new word : Text} {reader : Reader} {before : Option Char} {text other : Text}

/-- A word that does not stand in a text is not renamed. -/
theorem CodeRenamed.eq_of_lacksWord (h : CodeRenamed old new reader before text other)
    (hOld : IsPlainWord old) (hLacks : LacksWord old reader before text) : other = text := by
  induction h with
  | nil => rfl
  | keep _ _ ih =>
    cases hLacks with
    | cons _ hRest => rw [ih hRest]
  | @word reader before rest other hCode hBefore hAfter _ _ =>
    obtain ⟨c, name, rfl⟩ := List.exists_cons_of_ne_nil hOld.ne_nil
    cases hLacks with
    | cons hNone _ => exact (hNone rest rfl hBefore hAfter hCode).elim

theorem LacksWord.alike {second : Reader} (h : LacksWord word reader before text)
    (hAlike : reader.Alike second) : LacksWord word second before text := by
  cases h with
  | nil => exact .nil
  | @cons _ _ c rest hNone hRest =>
    refine .cons (fun back hText hBefore hAfter hCode => ?_) (hAlike.step_eq c rest ▸ hRest)
    refine hNone back hText hBefore hAfter ?_
    unfold Reader.IsInCode at hCode ⊢
    rw [hAlike.behind]
    exact hAlike.trans hCode

/-- Only whether a word stands in front matters. -/
theorem LacksWord.behind {after : Option Char} (h : LacksWord word reader before text)
    (hSame : before.any Text.isWord = after.any Text.isWord) :
    LacksWord word reader after text := by
  cases h with
  | nil => exact .nil
  | cons hNone hRest =>
    refine .cons (fun back hText hBefore hAfter => ?_) hRest
    refine hNone back hText ?_ hAfter
    unfold Text.isBoundary at hBefore ⊢
    rwa [hSame]

section

variable (hWord : IsPlainWord word)

include hWord

/-- Within a word no other one begins. -/
theorem lacksWord_append {front : Text}
    (hFront : ∀ c ∈ front, isPlain c = true ∧ Text.isWord c = true)
    {behind : Behind} (hBefore : before.any Text.isWord = true) {last : Option Char}
    (hLast : last.any Text.isWord = true)
    (h : LacksWord word (.inCode (behind.after front)) last text) :
    LacksWord word (.inCode behind) before (front ++ text) := by
  induction front generalizing behind before with
  | nil => exact h.behind (hLast.trans hBefore.symm)
  | cons c rest ih =>
    obtain ⟨⟨hPlain, hIs⟩, hRest⟩ := List.forall_mem_cons.mp hFront
    refine .cons (fun back hText hBoundary _ => ?_) ?_
    · rw [hWord.isBoundary_eq_false hBefore] at hBoundary
      cases hBoundary
    · rw [Reader.step_inCode behind hPlain]
      exact ih hRest hIs h

omit hWord in
theorem LacksWord.of_append {front : Text} (hFront : IsPlainWord front)
    (hCode : reader.IsInCode) (h : LacksWord word reader before (front ++ text)) :
    LacksWord word (.inCode (reader.behind.after front)) front.getLast? text := by
  have key (front : Text) (hFront : ∀ c ∈ front, isPlain c = true) (behind : Behind)
      (before : Option Char) (h : LacksWord word (.inCode behind) before (front ++ text)) :
      LacksWord word (.inCode (behind.after front)) (front.getLast?.or before) text := by
    induction front generalizing behind before with
    | nil => exact h
    | cons c rest ih =>
      obtain ⟨hPlain, hRest⟩ := List.forall_mem_cons.mp hFront
      cases h with
      | cons _ hTail =>
        rw [Reader.step_inCode behind hPlain] at hTail
        have hDone := ih hRest _ _ hTail
        rw [List.getLast?_cons]
        cases hLast : rest.getLast? <;> rw [hLast] at hDone <;> exact hDone
  have hDone := key front (fun c hc => hFront.isPlain hc) _ before (h.alike hCode)
  obtain ⟨c, rest, rfl⟩ := List.exists_cons_of_ne_nil hFront.ne_nil
  rw [List.getLast?_cons] at hDone ⊢
  exact hDone

/-- Two whole words at the beginning of a text are one. -/
theorem eq_of_append_eq {second front back : Text} (hSecond : IsPlainWord second)
    (hText : word ++ back = second ++ front)
    (hBack : Text.isBoundary word.getLast? back.head? = true)
    (hFront : Text.isBoundary second.getLast? front.head? = true) : word = second := by
  have hRun {name rest : Text} (hName : IsPlainWord name)
      (hRest : Text.isBoundary name.getLast? rest.head? = true) :
      (name ++ rest).takeWhile Text.isWord = name := by
    rw [List.takeWhile_append_of_pos hName.isWord]
    have hNone : rest.takeWhile Text.isWord = [] := by
      unfold Text.isBoundary at hRest
      rw [hName.any_getLast?] at hRest
      cases rest with
      | nil => rfl
      | cons c rest => exact List.takeWhile_cons_of_neg (by simpa using hRest)
    rw [hNone, List.append_nil]
  rw [← hRun hWord hBack, hText, hRun hSecond hFront]

end

/-- Behind a rename, the old name is gone, and no other word comes up but the new name. -/
theorem CodeRenamed.lacksWord (h : CodeRenamed old new reader before text other)
    (hOld : IsPlainName old) (hNew : IsPlainName new) (hWord : IsPlainWord word)
    (hNe : word ≠ new) (hGone : word = old ∨ LacksWord word reader before text) :
    LacksWord word reader before other := by
  induction h with
  | nil => exact .nil
  | @keep reader before c rest other hKept hRest ih =>
    refine .cons (fun back hText hBefore hAfter hCode => ?_) ?_
    · -- the word stood there before
      obtain ⟨first, name, rfl⟩ := List.exists_cons_of_ne_nil hWord.ne_nil
      obtain ⟨rfl, rfl⟩ := List.cons.inj hText
      have hWords := List.forall_mem_cons.mp hWord.isWord
      obtain ⟨tail, rfl, hSame⟩ := hRest.exists_of_append hOld.toIsPlainWord hWords.2
        (Option.any_some.trans hWords.1)
      have hTail : Text.isBoundary (c :: name).getLast? tail.head? = true := by
        unfold Text.isBoundary at hAfter ⊢
        rwa [← hSame]
      rcases hGone with rfl | hLacks
      · exact hKept tail rfl hBefore hTail hCode
      · cases hLacks with
        | cons hNone _ => exact hNone tail rfl hBefore hTail hCode
    · rw [hRest.step_eq hOld.toIsPlainWord hNew.toIsPlainWord reader c]
      refine ih (hGone.imp_right fun hLacks => ?_)
      cases hLacks with
      | cons _ hTail => exact hTail
  | @word reader before rest other hCode hBefore hAfter hRest ih =>
    have hTail := ih (hGone.imp_right fun hLacks => hLacks.of_append hOld.toIsPlainWord hCode)
    have hSame := hRest.any_head?_eq hOld.toIsPlainWord hOld.any_getLast?
    have hNewAfter : Text.isBoundary new.getLast? other.head? = true := by
      unfold Text.isBoundary at hAfter ⊢
      rw [hOld.any_getLast?] at hAfter
      rw [hNew.any_getLast?, hSame, hAfter]
    rw [hOld.behind_after, ← hNew.behind_after reader.behind] at hTail
    refine LacksWord.alike ?_ (Reader.Alike.symm hCode)
    obtain ⟨c, name, hName⟩ := List.exists_cons_of_ne_nil hNew.ne_nil
    rw [hName, List.cons_append]
    refine .cons (fun back hText _ hAfter _ => hNe ?_) ?_
    · rw [← List.cons_append, ← hName] at hText
      exact eq_of_append_eq hWord hNew.toIsPlainWord hText.symm hAfter hNewAfter
    · have hChars : ∀ d ∈ c :: name, isPlain d = true ∧ Text.isWord d = true := fun d hd =>
        ⟨hNew.isPlain (hName ▸ hd), hNew.isWord d (hName ▸ hd)⟩
      obtain ⟨⟨hPlain, hIs⟩, hRestChars⟩ := List.forall_mem_cons.mp hChars
      rw [Reader.step_inCode reader.behind hPlain]
      rw [hName] at hTail
      exact lacksWord_append hWord hRestChars hIs hOld.any_getLast? hTail

end

end XdrBindings.Code

namespace XdrBindings.Merge

open Code

/-! ## Renames one after the other -/

theorem renameWord_eq_self {old new text : Text} (hOld : IsPlainWord old)
    (h : LacksWord old .start none text) : renameWord old new text = text :=
  (codeRenamed_renameWord hOld text).eq_of_lacksWord hOld h

/-- Behind renames, the old names are gone that are not written for others. -/
theorem lacksWord_renameAll {renames : List (Text × Text)}
    (hPlain : ∀ rename ∈ renames, IsPlainName rename.1 ∧ IsPlainName rename.2) {word : Text}
    (hWord : IsPlainWord word) (hNew : word ∉ renames.map Prod.snd) {text : Text}
    (h : word ∈ renames.map Prod.fst ∨ LacksWord word .start none text) :
    LacksWord word .start none (renameAll renames text) := by
  induction renames generalizing text with
  | nil => exact h.resolve_left List.not_mem_nil
  | cons rename rest ih =>
    obtain ⟨⟨hOld, hOther⟩, hRest⟩ := List.forall_mem_cons.mp hPlain
    rw [List.map_cons, List.mem_cons, not_or] at hNew
    rw [List.map_cons, List.mem_cons] at h
    have hRenamed : CodeRenamed rename.1 rename.2 .start none text
        (renameWord rename.1 rename.2 text) := codeRenamed_renameWord hOld.toIsPlainWord text
    refine ih hRest hNew.2 ?_
    rcases h with (hHere | hLater) | hLacks
    · exact .inr (hRenamed.lacksWord hOld hOther hWord hNew.1 (.inl hHere))
    · exact .inl hLater
    · exact .inr (hRenamed.lacksWord hOld hOther hWord hNew.1 (.inr hLacks))

theorem renameAll_eq_self {renames : List (Text × Text)} {text : Text}
    (h : ∀ rename ∈ renames, IsPlainWord rename.1 ∧ LacksWord rename.1 .start none text) :
    renameAll renames text = text := by
  induction renames with
  | nil => rfl
  | cons rename rest ih =>
    obtain ⟨⟨hOld, hLacks⟩, hRest⟩ := List.forall_mem_cons.mp h
    change renameAll rest (renameWord rename.1 rename.2 text) = text
    rw [renameWord_eq_self hOld hLacks]
    exact ih hRest

/-- Renames that write no name that they replace change nothing when some of them are carried
out once more. -/
theorem renameAll_renameAll {renames more : List (Text × Text)}
    (hPlain : ∀ rename ∈ renames, IsPlainName rename.1 ∧ IsPlainName rename.2)
    (hMore : ∀ rename ∈ more, rename ∈ renames ∧ rename.1 ∉ renames.map Prod.snd) (text : Text) :
    renameAll more (renameAll renames text) = renameAll renames text := by
  refine renameAll_eq_self fun rename hMem => ?_
  obtain ⟨hRename, hNew⟩ := hMore rename hMem
  have hOld := (hPlain rename hRename).1.toIsPlainWord
  exact ⟨hOld, lacksWord_renameAll hPlain hOld hNew (.inl (List.mem_map_of_mem hRename))⟩

end XdrBindings.Merge
