import XdrBindings.Proofs.Code.ClassBodies
import XdrBindings.Proofs.Code.RenamedPieces

/-!
# The classes of a renamed text

Renaming goes through a text part by part where the parts are cut in code, at a character that
belongs to no word.  The braces of a class are such characters.  So the classes of a renamed text
are those of the text, with their names and their bodies renamed.

## Main results

* `renameWord_append` — renaming part by part.
* `AreParts.renamed` — the parts of a renamed text.
* `classBodies?_renameWord` — the classes of a renamed text with their bodies.
-/

namespace XdrBindings.Code

variable {old new : Text}

/-! ## Part by part -/

theorem units_append {front back : Text} (hCut : Cut front back) :
    units (front ++ back) =
      units front ++ back.zip ((Reader.start.after front).regionsFrom back) := by
  unfold units regions
  rw [Reader.regionsFrom_append _ hCut, List.zip_append (Reader.length_regionsFrom _ _).symm]

/-- Behind a text that ends in code, outside of words, renaming begins anew. -/
theorem renameWord_append (hOld : IsPlainWord old) {front back : Text} (hCut : Cut front back)
    (hAfter : (Reader.start.after front).Alike .start)
    (hLast : ∀ c ∈ front.getLast?, Text.isWord c = false) :
    renameWord old new (front ++ back) = renameWord old new front ++ renameWord old new back := by
  have hApart : ∀ unit ∈ (units front).getLast?, Text.isWord unit.1 = false := by
    intro unit hUnit
    refine hLast unit.1 ?_
    rw [← units_chars front, List.getLast?_map]
    exact Option.mem_map_of_mem _ hUnit
  rw [renameWord_eq_renameWords hOld, renameWord_eq_renameWords hOld,
    renameWord_eq_renameWords hOld, renameWords, units_append hCut,
    renameUnits_append (.inl hApart), List.map_append, hAfter.regionsFrom_eq]
  rfl

/-- A brace of code cuts a text in two parts that are renamed alone. -/
theorem renameWord_brace (hOld : IsPlainName old) (hNew : IsPlainName new) {front : Text}
    (hCode : (Reader.start.after front).IsInCode) {c : Char} (hc : isNoBrace c = false)
    (back : Text) :
    renameWord old new (front ++ c :: back) =
      renameWord old new front ++ c :: renameWord old new back := by
  have hPlain : isPlain c = true := by rcases isBrace_iff.mp hc with rfl | rfl <;> rfl
  have hWord : Text.isWord c = false := by rcases isBrace_iff.mp hc with rfl | rfl <;> rfl
  have hKeeps := keepsReading_renamedName hOld.toIsPlainWord hOld.ne_raw hNew.toIsPlainWord
    hNew.ne_raw
  have hAfter : (Reader.start.after (front ++ [c])).Alike .start := by
    have hStep := hCode.after [c]
    rw [Reader.after_inCode _ (List.forall_mem_singleton.mpr hPlain)] at hStep
    have hNothing := Behind.step_of_not_isNameChar (Reader.start.after front).behind
      (isNameChar_brace hc)
    rw [Reader.after_append _ (cut_of_head hPlain)]
    change ((Reader.start.after front).after [c]).Alike
      (.inCode ((Reader.start.after front).behind.step c)) at hStep
    rw [hNothing] at hStep
    exact hStep
  have hFront : renameWord old new (front ++ [c]) = renameWord old new front ++ [c] := by
    obtain ⟨region, hRegion⟩ : ∃ region,
        [c].zip ((Reader.start.after front).regionsFrom [c]) = [(c, region)] := ⟨_, rfl⟩
    have hHead : ∀ unit ∈ [(c, region)].head?, Text.isWord unit.1 = false :=
      fun _ hUnit => Option.some.inj hUnit ▸ hWord
    rw [renameWord_eq_renameWords hOld.toIsPlainWord, renameWord_eq_renameWords hOld.toIsPlainWord,
      renameWords, units_append (cut_of_head hPlain), hRegion,
      renameUnits_append (.inr hHead), List.map_append, hKeeps.renameUnits_single hWord]
    rfl
  have hText : front ++ c :: back = (front ++ [c]) ++ back := by simp
  rw [hText, renameWord_append hOld.toIsPlainWord (cut_of_last hPlain) hAfter, hFront]
  · simp
  · intro d hd
    rw [List.getLast?_concat] at hd
    exact Option.some.inj hd ▸ hWord

/-! ## Whole names part by part -/

theorem Spot.isWhole_before_brace {c : Char} (hc : isNoBrace c = false) (spot : Spot)
    (back : Text) : (spot.before (c :: back)).isWhole = spot.isWhole := by
  unfold isWhole
  rw [beginsWord_before_brace hc]
  cases hHere : spot.beginsWord classWord with
  | false => rfl
  | true =>
    have hWord : Text.isWord c = false := by rcases isBrace_iff.mp hc with rfl | rfl <;> rfl
    rw [drop_before (startsWith_of_beginsWord hHere), isWholeAhead, isWholeAhead,
      takeWhile_trimStart_brace hc (isNameChar_brace hc), takeWhile_trimStart_brace hc hWord]

/-- Whole names stand behind the keywords of both parts around a brace. -/
theorem areWhole_brace {front : Text} (hCode : (Reader.start.after front).IsInCode) {c : Char}
    (hc : isNoBrace c = false) (back : Text) :
    Reader.start.areWhole (front ++ c :: back) =
      (Reader.start.areWhole front && Reader.start.areWhole back) := by
  have hPlain : isPlain c = true := by rcases isBrace_iff.mp hc with rfl | rfl <;> rfl
  have hBrace (behind : Behind) (position : Nat) :
      Spot.isWhole ⟨position, behind, c, back⟩ = true := by
    have hNone : Spot.beginsWord ⟨position, behind, c, back⟩ classWord = false := by
      rcases isBrace_iff.mp hc with rfl | rfl <;> simp [Spot.beginsWord, Spot.ahead,
        Text.startsWith, classWord, List.isPrefixOf]
    unfold Spot.isWhole
    rw [hNone]
    rfl
  rw [Reader.areWhole, Reader.spotsFrom_append _ _ (cut_of_head hPlain), hCode.spotsFrom_eq,
    Reader.spotsFrom_brace _ _ _ hc, List.all_append, List.all_map, List.all_cons, hBrace,
    Reader.all_isWhole_spotsFrom, Bool.true_and]
  congr 1
  exact congrArg _ (funext fun spot => spot.isWhole_before_brace hc back)

/-! ## Closed texts -/

theorem isNoBrace_of_isNameChar {c : Char} (h : isNameChar c = true) : isNoBrace c = true := by
  rw [← Bool.not_eq_false]
  intro hc
  rw [isNameChar_brace hc] at h
  cases h

/-- A name in code opens and closes no block. -/
theorem openBlocks_name_append {name : Text} (hName : IsPlainName name) {reader : Reader}
    (hCode : reader.IsInCode) (depth : Nat) (back : Text) :
    openBlocks depth (reader.codeChars (name ++ back)) =
      openBlocks depth ((Reader.inCode ⟨true, false⟩).codeChars back) := by
  have hPlain : ∀ c ∈ name, isPlain c = true := fun _ hc => hName.toIsPlainWord.isPlain hc
  have hCut : Cut name back := .inr fun c hc => hPlain c (List.mem_of_getLast? hc)
  have hChars : ∀ c ∈ (Reader.inCode reader.behind).codeChars name, isNoBrace c = true :=
    fun c hc => isNoBrace_of_isNameChar (hName.isName c (Reader.mem_of_mem_codeChars hc))
  rw [hCode.codeChars_eq, Reader.codeChars_append _ hCut, openBlocks_append,
    openBlocks_of_isNoBrace hChars, Option.bind_some, Reader.after_inCode _ hPlain,
    hName.behind_after]

theorem CodeRenamed.openBlocks_eq (hOld : IsPlainName old) (hNew : IsPlainName new)
    {reader : Reader} {before : Option Char} {text other : Text}
    (h : CodeRenamed old new reader before text other) (depth : Nat) :
    openBlocks depth (reader.codeChars other) = openBlocks depth (reader.codeChars text) := by
  induction h generalizing depth with
  | nil => rfl
  | keep _ hRest ih =>
    rename_i reader before c rest other _
    rw [Reader.codeChars, Reader.codeChars, hRest.step_eq hOld.toIsPlainWord hNew.toIsPlainWord]
    split
    · rw [openBlocks, openBlocks, ih]
    · exact ih depth
  | word hCode _ _ _ ih =>
    rw [openBlocks_name_append hNew hCode, openBlocks_name_append hOld hCode]
    rw [hOld.behind_after] at ih
    exact ih depth

theorem IsClosed.renamed (hOld : IsPlainName old) (hNew : IsPlainName new) {text : Text}
    (h : IsClosed text) : IsClosed (renameWord old new text) := by
  have hRenamed := @codeRenamed_renameWord old new hOld.toIsPlainWord text
  exact ⟨(hRenamed.alike hOld hNew).mode.trans h.ends,
    (hRenamed.openBlocks_eq hOld hNew 0).trans h.balanced⟩

/-! ## Classes -/

theorem Reader.Alike.isInCode {reader other : Reader} (h : reader.Alike other)
    (hOther : other.IsInCode) : reader.IsInCode := by
  unfold Reader.IsInCode at hOther ⊢
  rw [h.behind]
  exact h.trans hOther

/-- What is found in a renamed text, positions left out. -/
theorem form_walkBehind_renameWord (hOld : IsPlainName old) (hNew : IsPlainName new) {text : Text}
    (hWhole : Reader.start.areWhole text = true) :
    (walkBehind (renameWord old new text)).form =
      (walkBehind text).form.map (renamedName old new) := by
  rw [form_walkBehind, form_walkBehind, (outline_renameWord hOld hNew hWhole).1]
  exact Form.after_map _ (.outside 0 none) _

theorem names_sitesOf_renameWord (hOld : IsPlainName old) (hNew : IsPlainName new) {text : Text}
    (hWhole : Reader.start.areWhole text = true) :
    (sitesOf (renameWord old new text)).map Site.name =
      (sitesOf text).map (renamedName old new ∘ Site.name) := by
  rw [names_sitesOf, namesOf, (outline_renameWord hOld hNew hWhole).1, ← List.map_map,
    names_sitesOf, namesOf]
  exact Form.names_map _ (.outside 0 none) _

theorem sitesOf_renameWord_eq_nil (hOld : IsPlainName old) (hNew : IsPlainName new) {text : Text}
    (hWhole : Reader.start.areWhole text = true) (h : sitesOf text = []) :
    sitesOf (renameWord old new text) = [] := by
  have hNames := names_sitesOf_renameWord hOld hNew hWhole
  rw [h] at hNames
  exact List.map_eq_nil_iff.mp hNames

theorem Walk.exists_of_form_eq {walk : Walk} {depth : Nat} {name : Text}
    (h : walk.form = .outside depth (some name)) :
    ∃ keyword, walk = .outside depth (some (name, keyword)) := by
  cases walk with
  | inside name keyword opening depth => cases h
  | outside other pending =>
    obtain ⟨rfl, hPending⟩ := Form.outside.inj h
    obtain ⟨head, rfl, rfl⟩ := Option.map_eq_some_iff.mp hPending
    exact ⟨head.2, rfl⟩

namespace ClassPart

/-- A part with other words in it. -/
def renamed (old new : Text) (part : ClassPart) : ClassPart :=
  ⟨renamedName old new part.name, renameWord old new part.front, renameWord old new part.body⟩

variable {part : ClassPart} {keyword : Nat} (hOld : IsPlainName old) (hNew : IsPlainName new)

include hOld hNew

theorem IsPart.renamed (h : part.IsPart keyword)
    (hWhole : Reader.start.areWhole part.front = true) :
    ∃ keyword, (part.renamed old new).IsPart keyword := by
  have hAlike := (@codeRenamed_renameWord old new hOld.toIsPlainWord part.front).alike
    hOld hNew
  have hForm := form_walkBehind_renameWord hOld hNew hWhole
  rw [h.waiting] at hForm
  obtain ⟨other, hOther⟩ := Walk.exists_of_form_eq hForm
  exact ⟨other, hAlike.isInCode h.inCode, hOther,
    sitesOf_renameWord_eq_nil hOld hNew hWhole h.none_earlier, h.closed.renamed hOld hNew⟩

theorem IsPart.renameWord_append (h : part.IsPart keyword) (back : Text) :
    renameWord old new (part.text ++ back) =
      (part.renamed old new).text ++ renameWord old new back := by
  have hBody : (Reader.start.after part.body).IsInCode := h.closed.after
  rw [part.text_append, renameWord_brace hOld hNew h.inCode (isBrace_iff.mpr (.inl rfl)),
    renameWord_brace hOld hNew hBody (isBrace_iff.mpr (.inr rfl)), text_append]
  rfl

omit hOld hNew in
theorem IsPart.areWhole_append (h : part.IsPart keyword) (back : Text) :
    Reader.start.areWhole (part.text ++ back) = (Reader.start.areWhole part.front &&
      (Reader.start.areWhole part.body && Reader.start.areWhole back)) := by
  have hBody : (Reader.start.after part.body).IsInCode := h.closed.after
  rw [part.text_append, areWhole_brace h.inCode (isBrace_iff.mpr (.inl rfl)),
    areWhole_brace hBody (isBrace_iff.mpr (.inr rfl))]

end ClassPart

/-- A text that is put together is renamed part by part. -/
theorem renameWord_assembled (hOld : IsPlainName old) (hNew : IsPlainName new)
    {parts : List ClassPart} (hParts : AreParts parts) (tail : Text) :
    renameWord old new (assembled parts tail) =
      assembled (parts.map (ClassPart.renamed old new)) (renameWord old new tail) := by
  induction parts with
  | nil => rfl
  | cons part rest ih =>
    obtain ⟨⟨keyword, hPart⟩, hRest⟩ := List.forall_mem_cons.mp hParts
    rw [assembled, hPart.renameWord_append hOld hNew, ih hRest]
    rfl

theorem areWhole_assembled {parts : List ClassPart} (hParts : AreParts parts) {tail : Text}
    (hWhole : Reader.start.areWhole (assembled parts tail) = true) :
    (∀ part ∈ parts, Reader.start.areWhole part.front = true) ∧
      Reader.start.areWhole tail = true := by
  induction parts with
  | nil => exact ⟨nofun, hWhole⟩
  | cons part rest ih =>
    obtain ⟨⟨keyword, hPart⟩, hRest⟩ := List.forall_mem_cons.mp hParts
    rw [assembled, hPart.areWhole_append, Bool.and_eq_true, Bool.and_eq_true] at hWhole
    obtain ⟨hFronts, hTail⟩ := ih hRest hWhole.2.2
    exact ⟨List.forall_mem_cons.mpr ⟨hWhole.1, hFronts⟩, hTail⟩

theorem AreParts.renamed (hOld : IsPlainName old) (hNew : IsPlainName new)
    {parts : List ClassPart} (hParts : AreParts parts)
    (hWhole : ∀ part ∈ parts, Reader.start.areWhole part.front = true) :
    AreParts (parts.map (ClassPart.renamed old new)) := by
  intro other hOther
  obtain ⟨part, hPart, rfl⟩ := List.mem_map.mp hOther
  obtain ⟨keyword, hIs⟩ := hParts part hPart
  exact hIs.renamed hOld hNew (hWhole part hPart)

/-- The classes of a renamed text are those of the text, with other names and bodies. -/
theorem classBodies?_renameWord (hOld : IsPlainName old) (hNew : IsPlainName new) {text : Text}
    (hWhole : Reader.start.areWhole text = true) :
    classBodies? (renameWord old new text) = (classBodies? text).map
      (List.map (Prod.map (renamedName old new) (renameWord old new))) := by
  have hForm := form_walkBehind_renameWord hOld hNew hWhole
  have hBodies : bodiesOf (renameWord old new text) =
      (bodiesOf text).map (Prod.map (renamedName old new) (renameWord old new)) := by
    obtain ⟨parts, tail, rfl, hParts, hTail⟩ := exists_parts text
    obtain ⟨hFronts, hTailWhole⟩ := areWhole_assembled hParts hWhole
    rw [renameWord_assembled hOld hNew hParts,
      bodiesOf_assembled (hParts.renamed hOld hNew hFronts)
        (sitesOf_renameWord_eq_nil hOld hNew hTailWhole hTail),
      bodiesOf_assembled hParts hTail, List.map_map, List.map_map]
    rfl
  have hOutside (form : Form) : (form.map (renamedName old new)).isOutside = form.isOutside := by
    cases form <;> rfl
  rw [classBodies?_eq, classBodies?_eq, hForm, hOutside, hBodies]
  split <;> rfl

end XdrBindings.Code
