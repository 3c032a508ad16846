import XdrBindings.Proofs.Code.ClassLines
import XdrBindings.Proofs.Code.DeclarationLines
import XdrBindings.Proofs.Code.RenamedClasses

/-!
# Declarations as texts of their own

A declaration that is cut out of a text is a text of its own.  Where it is read alone as one
declaration, from the first line that belongs to it through its closing brace, it stays one under
other names: renaming keeps the lines that classes stand on, and a line that belongs to the
declaration below it stays such a line.  Declarations that are written one behind the other, with
empty lines between them, are cut out again as they were written.

## Main results

* `LineHead.declaration_eq_zero_iff` — where a declaration begins its text.
* `isDeclared_iff` — a text that is one declaration, as a class with lines above its keyword.
* `IsDeclared.renamed` — such a text under other names.
* `sourcesOf_join`, `renameWord_join` — declarations one behind the other.
-/

namespace XdrBindings.Code

/-! ## Lines that belong to a declaration -/

variable {renames : List (Text × Text)}

/-- What a line begins with tells whether it belongs to the declaration below it. -/
theorem isAttached_eq (line : Text) : isAttached line =
    (Text.startsWith (Text.trimStart line) "///".toList ||
      Text.startsWith (Text.trimStart line) ['@']) := by
  unfold isAttached Text.trim
  rw [Text.startsWith_trimEnd (by decide), Text.startsWith_trimEnd (by decide)]

theorem RenamedAll.isAttached_eq (hNames : AreNames renames) {line other : Text}
    (h : RenamedAll renames line other) : isAttached other = isAttached line := by
  have hBegin := h.trimStart hNames
  rw [Code.isAttached_eq, Code.isAttached_eq, hBegin.startsWith_eq hNames (by decide),
    hBegin.startsWith_eq hNames (by decide)]

/-! ## Where declarations begin -/

theorem isAttached_concat (row : Text) : isAttached (row ++ ['\n']) = isAttached row := by
  unfold isAttached
  rw [Text.trim_append_of_isBlankText rfl]

/-- A declaration begins its text if all lines above its keyword belong to it. -/
theorem LineHead.declaration_eq_zero_iff {text : Text} {position : Nat}
    (h : position < text.length) :
    (ofPosition (ofText text) position).declaration = 0 ↔
      ∀ row ∈ text.pieces.take (text.lineOf position - 1), isAttached row = true := by
  obtain ⟨above, taken, line, below, hLines, hNumber, hStart⟩ := exists_declarationLines h
  have hChunks := hLines.chunks_eq
  rw [← List.append_assoc] at hChunks
  have hRows : text.pieces.take (text.lineOf position - 1) =
      (above ++ taken).map List.dropLast := by
    rw [← number_ofPosition h, hNumber, Nat.add_sub_cancel]
    exact Text.take_pieces_of_chunks_eq hChunks (List.cons_ne_nil _ _)
  have hAll : (∀ row ∈ (above ++ taken).map List.dropLast, isAttached row = true) ↔
      ∀ chunk ∈ above ++ taken, isAttached chunk = true := by
    rw [List.forall_mem_map]
    refine forall₂_congr fun chunk hMem => ?_
    rw [← isAttached_concat, (Text.dropLast_of_chunks_eq hChunks (List.cons_ne_nil _ _) hMem).1]
  rw [hRows, hAll, hStart]
  constructor
  · intro hZero chunk hMem
    have hEmpty := List.flatten_eq_nil_iff.mp (List.length_eq_zero_iff.mp hZero)
    rcases List.mem_append.mp hMem with hAbove | hTaken
    · have hWhole := (Text.dropLast_of_chunks_eq hChunks (List.cons_ne_nil _ _) hMem).1
      rw [hEmpty chunk hAbove] at hWhole
      cases hWhole
    · exact hLines.attached chunk hTaken
  · intro hAttached
    rcases List.eq_nil_or_concat above with rfl | ⟨front, last, rfl⟩
    · rfl
    · have hNo := hLines.detached last (by simp)
      rw [hAttached last (by simp)] at hNo
      cases hNo

/-! ## Texts that are one declaration -/

/-- Whether a text is one declaration of a class with what belongs to it above, and nothing
else. -/
def IsDeclared (name text : Text) : Prop := sourcesOf text = [(name, text)]

instance (name text : Text) : Decidable (IsDeclared name text) :=
  inferInstanceAs (Decidable (sourcesOf text = [(name, text)]))

namespace ClassPart

/-- Whether all lines above the keyword of a class belong to its declaration. -/
def IsWhole (part : ClassPart) (keyword : Nat) : Prop :=
  ∀ row ∈ part.text.pieces.take (part.text.lineOf keyword - 1), isAttached row = true

variable {part : ClassPart} {keyword : Nat}

theorem IsPart.keyword_lt (h : part.IsPart keyword) : keyword < part.text.length := by
  have hSites := h.sitesOf_eq []
  rw [List.append_nil] at hSites
  have hMem : part.site keyword ∈ sitesOf part.text := by
    rw [hSites]
    exact List.mem_cons_self
  exact keyword_lt_of_mem_sitesOf hMem

/-- The source of such a class is its text. -/
theorem IsPart.source_eq_iff (h : part.IsPart keyword) (back : Text) :
    ((part.site keyword).decl (LineHead.ofText (part.text ++ back))).source (part.text ++ back) =
      part.text ↔ part.IsWhole keyword := by
  have hLt : keyword < (part.text ++ back).length := by
    rw [List.length_append]
    exact Nat.lt_add_right _ h.keyword_lt
  have hZero := LineHead.declaration_eq_zero_iff hLt
  rw [Text.lineOf_append (Nat.le_of_lt h.keyword_lt), Text.take_pieces_append] at hZero
  rw [IsWhole, ← hZero]
  change Text.slice _ (LineHead.ofPosition (LineHead.ofText (part.text ++ back)) keyword).declaration
    (part.front.length + 1 + part.body.length + 1) = _ ↔ _
  rw [← part.length_text, Text.slice_append_left (Nat.le_refl _), Text.slice]
  generalize (LineHead.ofPosition (LineHead.ofText (part.text ++ back)) keyword).declaration = start
  constructor
  · intro hSlice
    have hLength := congrArg List.length hSlice
    have hSome := part.length_text
    rw [List.length_take, List.length_drop] at hLength
    omega
  · rintro rfl
    exact List.take_length

end ClassPart

/-- Such a text is one class with lines above its keyword that belong to it. -/
theorem isDeclared_iff {name text : Text} : IsDeclared name text ↔
    ∃ (part : ClassPart) (keyword : Nat), part.text = text ∧ part.name = name ∧
      part.IsPart keyword ∧ part.IsWhole keyword := by
  constructor
  · intro h
    obtain ⟨site, hSites, hSource⟩ := List.map_eq_singleton_iff.mp h
    obtain ⟨rfl, hSource⟩ := Prod.ext_iff.mp hSource
    dsimp only at hSource
    obtain ⟨front, body, back, hSplit⟩ := exists_classSplit (hSites.trans (List.nil_append _).symm)
    have hText := hSplit.text_eq
    -- the source ends with the closing brace, so nothing stands behind
    have hBack : back = [] := by
      have hLength := congrArg List.length hSource
      rw [ClassDecl.source, Text.slice, List.length_take, List.length_drop] at hLength
      have hClosing : (site.decl (LineHead.ofText text)).closing =
          front.length + 1 + body.length := hSplit.closing_eq
      have hAll := congrArg List.length hText
      simp only [List.length_append, List.length_cons] at hAll
      refine List.length_eq_zero_iff.mp ?_
      omega
    subst hBack
    have hPart : ClassPart.IsPart ⟨site.name, front, body⟩ site.keyword :=
      ⟨hSplit.inCode, hSplit.waiting, hSplit.earlier_eq, hSplit.closed⟩
    have hWhole : ClassPart.text ⟨site.name, front, body⟩ = text := hText.symm
    refine ⟨⟨site.name, front, body⟩, site.keyword, hWhole, rfl, hPart, ?_⟩
    rw [← hPart.source_eq_iff [], List.append_nil, hWhole]
    have hSite := hPart.sitesOf_eq []
    rw [List.append_nil, hWhole, hSites] at hSite
    rw [← (List.cons.inj hSite).1, hSource]
  · rintro ⟨part, keyword, rfl, rfl, hPart, hRows⟩
    have hSource := (hPart.source_eq_iff []).mpr hRows
    have hSites := hPart.sitesOf_eq []
    rw [List.append_nil] at hSites hSource
    rw [IsDeclared, sourcesOf, hSites]
    exact congrArg (fun source => [(part.name, source)]) hSource

/-! ## Renaming -/

theorem ClassPart.IsPart.lineSites_eq {part : ClassPart} {keyword : Nat} (h : part.IsPart keyword) :
    lineSites part.text = [(part.site keyword).map id part.text.lineOf] := by
  have hSites := h.sitesOf_eq []
  rw [List.append_nil] at hSites
  rw [lineSites, hSites]
  rfl

theorem renameWord_nil {old : Text} (hOld : old ≠ []) (new : Text) :
    renameWord old new [] = [] := by
  cases old with
  | nil => exact absurd rfl hOld
  | cons c rest => rfl

section Renamed

variable {old new : Text} (hOld : IsPlainName old) (hNew : IsPlainName new)

include hOld hNew

theorem ClassPart.IsPart.text_renamed {part : ClassPart} {keyword : Nat} (h : part.IsPart keyword) :
    (part.renamed old new).text = renameWord old new part.text := by
  have hText := h.renameWord_append hOld hNew []
  rw [renameWord_nil hOld.ne_nil, List.append_nil, List.append_nil] at hText
  exact hText.symm

/-- A renamed declaration is a declaration. -/
theorem IsDeclared.renamed {name text : Text} (h : IsDeclared name text)
    (hWhole : Reader.start.areWhole text = true) :
    IsDeclared (renamedName old new name) (renameWord old new text) := by
  obtain ⟨part, keyword, rfl, rfl, hPart, hRows⟩ := isDeclared_iff.mp h
  have hFront : Reader.start.areWhole part.front = true := by
    rw [← List.append_nil part.text, hPart.areWhole_append, Bool.and_eq_true] at hWhole
    exact hWhole.1
  obtain ⟨other, hOther⟩ := hPart.renamed hOld hNew hFront
  have hText := hPart.text_renamed hOld hNew
  refine isDeclared_iff.mpr ⟨part.renamed old new, other, hText, rfl, hOther, ?_⟩
  -- the keyword stays on its line
  have hLine : (part.renamed old new).text.lineOf other = part.text.lineOf keyword := by
    have hLines := hOther.lineSites_eq
    rw [hText, lineSites_renameWord hOld hNew hWhole, hPart.lineSites_eq] at hLines
    rw [hText]
    exact (congrArg Site.keyword (List.cons.inj hLines).1).symm
  have hNames : AreNames [(old, new)] :=
    List.forall_mem_singleton.mpr ⟨⟨hOld.ne_nil, hOld.isName⟩, hNew.ne_nil, hNew.isName⟩
  have hAll : RenamedAll [(old, new)] part.text (part.renamed old new).text := by
    rw [hText]
    exact .cons (renamed_renameWord hOld.ne_nil _) .nil
  have hSame := map_eq_of_renamed (fun _ _ hRow => hRow.isAttached_eq hNames)
    (List.forall₂_take (part.text.lineOf keyword - 1) (hAll.pieces hNames))
  intro row hRow
  rw [hLine] at hRow
  have hMem := List.mem_map_of_mem (f := isAttached) hRow
  rw [hSame] at hMem
  obtain ⟨source, hSource, hEq⟩ := List.mem_map.mp hMem
  rw [← hEq]
  exact hRows source hSource

end Renamed

/-! ## One behind the other -/

/-- Behind a declaration and an empty line, the declarations of a text are what they are without
them. -/
theorem IsDeclared.sourcesOf_append {name text : Text} (h : IsDeclared name text) (back : Text) :
    sourcesOf (text ++ (['\n', '\n'] ++ back)) = (name, text) :: sourcesOf back := by
  obtain ⟨part, keyword, rfl, rfl, hPart, hRows⟩ := isDeclared_iff.mp h
  have hBlanks : ∀ c ∈ ['\n', '\n'], Text.isBlank c = true := by decide
  have hDetached : IsDetached (part.text ++ ['\n', '\n']) := by
    have hLine : IsDetached (part.text ++ ['\n'] ++ ([] ++ ['\n'])) :=
      isDetached_append_line (Text.endsLine_concat part.text) List.not_mem_nil (by decide)
    rwa [List.append_assoc] at hLine
  have hFirst := (hPart.source_eq_iff (['\n', '\n'] ++ back)).mpr hRows
  have hSites := hPart.sitesOf_eq (['\n', '\n'] ++ back)
  rw [(search_blanks_append hBlanks back).1, List.map_map] at hSites
  rw [sourcesOf, hSites, List.map_cons, List.map_map]
  refine congrArg₂ List.cons (congrArg (Prod.mk part.name) hFirst) ?_
  refine List.map_congr_left fun site hSite => ?_
  have hSource := source_shift hDetached hSite
  have hShift : Site.shift part.text.length (Site.shift (['\n', '\n'] : Text).length site) =
      site.shift (part.text ++ ['\n', '\n']).length := by
    rw [Site.shift_shift, List.length_append, Nat.add_comm part.text.length]
  rw [List.append_assoc] at hSource
  show (site.name, _) = _
  rw [Function.comp_apply, hShift]
  exact congrArg (Prod.mk site.name) hSource

/-- Declarations with empty lines between them are found again. -/
theorem sourcesOf_join {decls : List (Text × Text)}
    (h : ∀ decl ∈ decls, IsDeclared decl.1 decl.2) :
    sourcesOf (Text.join ['\n', '\n'] (decls.map Prod.snd) ++ ['\n']) = decls := by
  induction decls with
  | nil => rfl
  | cons decl rest ih =>
    obtain ⟨hDecl, hRest⟩ := List.forall_mem_cons.mp h
    cases rest with
    | nil =>
      have hLast : Text.join ['\n', '\n'] [decl.2] = decl.2 := by simp [Text.join]
      have hBlanks : ∀ c ∈ ['\n'], Text.isBlank c = true := by decide
      obtain ⟨part, keyword, hText, hName, hPart, hRows⟩ := isDeclared_iff.mp hDecl
      have hSource := (hPart.source_eq_iff ['\n']).mpr hRows
      have hSites := hPart.sitesOf_eq []
      rw [List.append_nil] at hSites
      rw [List.map_singleton, hLast, sourcesOf, (search_append_blanks hBlanks _).1, ← hText, hSites]
      refine congrArg (fun pair => [pair]) (Prod.ext hName ?_)
      exact hSource.trans hText
    | cons next rest =>
      rw [List.map_cons, List.map_cons, Text.join_cons_cons, List.append_assoc, List.append_assoc,
        hDecl.sourcesOf_append]
      exact congrArg (decl :: ·) (ih hRest)

theorem areWhole_blanks_append {blanks : Text} (hBlanks : ∀ c ∈ blanks, Text.isBlank c = true)
    (back : Text) : Reader.start.areWhole (blanks ++ back) = Reader.start.areWhole back := by
  induction blanks with
  | nil => rfl
  | cons c rest ih =>
    obtain ⟨hc, hRest⟩ := List.forall_mem_cons.mp hBlanks
    have hNone : Spot.beginsWord ⟨0, Reader.start.behind, c, rest ++ back⟩ classWord = false :=
      Spot.beginsWord_of_isBlank hc
    have hHere : isWholeAt Reader.start.behind c (rest ++ back) = true := by
      rw [isWholeAt, Spot.isWhole, hNone]
      rfl
    rw [List.cons_append, Reader.areWhole_cons, hHere, Reader.step_start_of_isBlank hc, ih hRest,
      Bool.or_true, Bool.true_and]

section Renamed

variable {old new : Text} (hOld : IsPlainName old) (hNew : IsPlainName new)

include hOld

theorem renameWord_blanks_append {blanks : Text} (hBlanks : ∀ c ∈ blanks, Text.isBlank c = true)
    (back : Text) : renameWord old new (blanks ++ back) = blanks ++ renameWord old new back := by
  have hCut : Cut blanks back :=
    .inr fun c hc => isPlain_of_isBlank (hBlanks c (List.mem_of_mem_getLast? hc))
  have hAfter : (Reader.start.after blanks).Alike .start := by
    rw [Reader.after_start_blanks hBlanks]
    exact Reader.Alike.refl _
  have hLast : ∀ c ∈ blanks.getLast?, Text.isWord c = false := fun c hc =>
    isWord_of_isBlank (hBlanks c (List.mem_of_mem_getLast? hc))
  have hStays : renameWord old new blanks = blanks := by
    have hRenamed := @renamed_renameWord old new hOld.ne_nil blanks
    rw [← List.append_nil blanks] at hRenamed
    obtain ⟨_, other, hOther, hNil⟩ := hRenamed.of_append_of_not_mem hOld.ne_nil fun c hc hMem => by
      have hName := hOld.isName c hMem
      rw [isNameChar_of_isBlank (hBlanks c hc)] at hName
      cases hName
    rw [hNil.eq_nil hOld.ne_nil rfl, List.append_nil] at hOther
    exact hOther
  rw [renameWord_append hOld.toIsPlainWord hCut hAfter hLast, hStays]

include hNew

/-- Declarations are renamed one by one. -/
theorem renameWord_join {decls : List (Text × Text)}
    (h : ∀ decl ∈ decls, IsDeclared decl.1 decl.2) :
    renameWord old new (Text.join ['\n', '\n'] (decls.map Prod.snd)) =
      Text.join ['\n', '\n'] ((decls.map Prod.snd).map (renameWord old new)) := by
  induction decls with
  | nil => exact renameWord_nil hOld.ne_nil new
  | cons decl rest ih =>
    obtain ⟨hDecl, hRest⟩ := List.forall_mem_cons.mp h
    cases rest with
    | nil => simp [Text.join]
    | cons next rest =>
      have hBlanks : ∀ c ∈ ['\n', '\n'], Text.isBlank c = true := by decide
      obtain ⟨part, keyword, hText, -, hPart, -⟩ := isDeclared_iff.mp hDecl
      have hBehind := ih hRest
      rw [List.map_cons, List.map_cons] at hBehind
      rw [List.map_cons, List.map_cons, List.map_cons, List.map_cons, Text.join_cons_cons,
        Text.join_cons_cons, ← hBehind, ← hText, hPart.renameWord_append hOld hNew,
        hPart.text_renamed hOld hNew, renameWord_blanks_append hOld hBlanks]

omit hOld hNew in
/-- Whole names stand behind the keywords of each declaration. -/
theorem areWhole_join {decls : List (Text × Text)}
    (h : ∀ decl ∈ decls, IsDeclared decl.1 decl.2)
    (hWhole : Reader.start.areWhole (Text.join ['\n', '\n'] (decls.map Prod.snd)) = true) :
    ∀ decl ∈ decls, Reader.start.areWhole decl.2 = true := by
  induction decls with
  | nil => exact List.forall_mem_nil _
  | cons decl rest ih =>
    obtain ⟨hDecl, hRest⟩ := List.forall_mem_cons.mp h
    cases rest with
    | nil =>
      refine List.forall_mem_singleton.mpr ?_
      simpa [Text.join] using hWhole
    | cons next rest =>
      have hBlanks : ∀ c ∈ ['\n', '\n'], Text.isBlank c = true := by decide
      obtain ⟨part, keyword, hText, -, hPart, -⟩ := isDeclared_iff.mp hDecl
      rw [List.map_cons, List.map_cons, Text.join_cons_cons, ← hText, hPart.areWhole_append,
        areWhole_blanks_append hBlanks, Bool.and_eq_true, Bool.and_eq_true] at hWhole
      refine List.forall_mem_cons.mpr ⟨?_, ih hRest hWhole.2.2⟩
      rw [← hText, ← List.append_nil part.text, hPart.areWhole_append, hWhole.1, hWhole.2.1]
      rfl

end Renamed

end XdrBindings.Code
