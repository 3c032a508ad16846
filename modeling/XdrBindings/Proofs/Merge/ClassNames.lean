import Mathlib.Tactic.MkIffOfInductiveProp
import XdrBindings.Proofs.Code.RenamedClasses
import XdrBindings.Proofs.Merge.GeneratedCode
import XdrBindings.Proofs.Merge.Survival

/-!
# The names of the classes in a merged file

A merge writes the generated classes and, under the generated naming, the old classes that
match none of them.  A dollar sign belongs to the names of classes but not to the words that
are replaced, so such a name can stay as it was.  A class is carried over by whole lines, so
another class on the same line comes along.

## Main results

* `classBodies?_renameAll` — classes and their bodies behind any number of renames.
* `Stages.KeepsClasses.classNames?_text` — the names of the classes of a merged text.
* `missing_classes_come_back`, `class_names_apart` — what follows for the old classes.
-/

namespace XdrBindings.Merge

open Code

/-! ## Renames one after the other -/

/-- What a name becomes behind renames. -/
def renamedBy (renames : List (Text × Text)) (name : Text) : Text :=
  renames.foldl (fun name rename => renamedName rename.1 rename.2 name) name

/-- Renames rename the classes of a text in which whole words stand behind the keywords. -/
theorem classBodies?_renameAll {renames : List (Text × Text)}
    (hPlain : ∀ rename ∈ renames, IsPlainName rename.1 ∧ IsPlainName rename.2) {text : Text}
    (hWhole : Reader.start.areWhole text = true) :
    classBodies? (renameAll renames text) =
      (classBodies? text).map (List.map (Prod.map (renamedBy renames) (renameAll renames))) := by
  induction renames generalizing text with
  | nil =>
    have hSame : List.map (Prod.map (renamedBy []) (renameAll [])) = id := List.map_id_fun
    rw [hSame, Option.map_id]
    rfl
  | cons rename rest ih =>
    obtain ⟨⟨hOld, hNew⟩, hRest⟩ := List.forall_mem_cons.mp hPlain
    obtain ⟨-, hStays⟩ := outline_renameWord hOld hNew hWhole
    have hNext := ih hRest hStays
    rw [classBodies?_renameWord hOld hNew hWhole, Option.map_map] at hNext
    refine hNext.trans (congrArg (Option.map · _) (funext fun bodies => ?_))
    rw [Function.comp_apply, List.map_map]
    rfl

theorem renamedBy_of_not_mem {renames : List (Text × Text)} {name : Text}
    (h : name ∉ renames.map Prod.fst) : renamedBy renames name = name := by
  induction renames with
  | nil => rfl
  | cons rename rest ih =>
    rw [List.map_cons, List.mem_cons, not_or] at h
    rw [renamedBy, List.foldl_cons, renamedName, if_neg h.1]
    exact ih h.2

/-- A name is replaced once, if what replaces it is not replaced again. -/
theorem renamedBy_of_mem {renames : List (Text × Text)} {start name : Text}
    (hNew : ∀ rename ∈ renames, rename.2 = start ++ rename.1)
    (hOnce : start ++ name ∉ renames.map Prod.fst) (h : name ∈ renames.map Prod.fst) :
    renamedBy renames name = start ++ name := by
  induction renames with
  | nil => cases h
  | cons rename rest ih =>
    obtain ⟨hHere, hRest⟩ := List.forall_mem_cons.mp hNew
    rw [List.map_cons, List.mem_cons, not_or] at hOnce
    rw [renamedBy, List.foldl_cons, renamedName]
    split
    · rename_i hEq
      rw [hHere, ← hEq]
      exact renamedBy_of_not_mem hOnce.2
    · rename_i hNe
      rw [List.map_cons, List.mem_cons] at h
      exact ih hRest hOnce.2 (h.resolve_left hNe)

namespace Style

variable {style : Style}

/-- The name that a class is carried over under. -/
def carriedName (style : Style) (name : Text) : Text := (style.generatedName? name).getD name

theorem carriedName_eq_or (name : Text) :
    (name.startsWith style.classStart = true ∧ style.carriedName name = name) ∨
      (name.startsWith style.classStart = false ∧
        style.carriedName name = style.classStart ++ name) := by
  unfold carriedName generatedName?
  cases hStarts : name.startsWith style.classStart with
  | true => exact .inl ⟨rfl, by rw [if_pos rfl]; rfl⟩
  | false => exact .inr ⟨rfl, by rw [if_neg (by decide)]; rfl⟩

theorem startsWith_carriedName (name : Text) :
    (style.carriedName name).startsWith style.classStart = true := by
  rcases style.carriedName_eq_or name with ⟨hStarts, hName⟩ | ⟨-, hName⟩
  · rw [hName, hStarts]
  · rw [hName]
    exact List.isPrefixOf_iff_prefix.mpr (List.prefix_append _ _)

/-- A class matches the generated class of its name, else that of the name that it would be
carried over under. -/
theorem matchOf?_eq (generated : List ClassDecl) (name : Text) :
    style.matchOf? generated name =
      if name ∈ generated.map ClassDecl.name then some name
      else if style.carriedName name ∈ generated.map ClassDecl.name then
        some (style.carriedName name)
      else none := by
  have hAny (candidate : Text) : (generated.any fun decl => decl.name == candidate) = true ↔
      candidate ∈ generated.map ClassDecl.name := by
    simp [List.any_eq_true, List.mem_map]
  unfold matchOf? carriedName
  dsimp only
  by_cases hName : name ∈ generated.map ClassDecl.name
  · rw [if_pos ((hAny name).mpr hName), if_pos hName]
  · rw [if_neg (mt (hAny name).mp hName), if_neg hName]
    cases style.generatedName? name with
    | none => exact (if_neg hName).symm
    | some other => simp only [Option.filter_some, hAny, Option.getD_some]

/-- A class has no match if neither its name nor the name it is carried over under is
generated. -/
theorem matchOf?_eq_none_iff {generated : List ClassDecl} {name : Text} :
    style.matchOf? generated name = none ↔ name ∉ generated.map ClassDecl.name ∧
      style.carriedName name ∉ generated.map ClassDecl.name := by
  rw [matchOf?_eq]
  split_ifs <;> simp [*]

theorem of_mem_carriedRenames {carried : List OldClass} {rename : Text × Text}
    (h : rename ∈ style.carriedRenames carried) :
    rename.2 = style.classStart ++ rename.1 ∧ rename.1.startsWith style.classStart = false := by
  obtain ⟨old, -, hOld⟩ := List.mem_filterMap.mp h
  obtain ⟨newName, hNew, rfl⟩ := Option.map_eq_some_iff.mp hOld
  unfold generatedName? at hNew
  split at hNew
  · cases hNew
  · rename_i hStarts
    exact ⟨(Option.some.inj hNew).symm, Bool.eq_false_iff.mpr hStarts⟩

theorem mem_carriedRenames_iff {carried : List OldClass} {word : Text} :
    word ∈ (style.carriedRenames carried).map Prod.fst ↔
      word ∈ carried.map (fun old => old.decl.name) ∧
        word.startsWith style.classStart = false := by
  constructor
  · intro h
    obtain ⟨rename, hRename, rfl⟩ := List.mem_map.mp h
    obtain ⟨old, hOld, hName⟩ := List.mem_filterMap.mp hRename
    obtain ⟨newName, -, rfl⟩ := Option.map_eq_some_iff.mp hName
    exact ⟨List.mem_map_of_mem hOld, (of_mem_carriedRenames hRename).2⟩
  · rintro ⟨hMem, hStarts⟩
    obtain ⟨old, hOld, rfl⟩ := List.mem_map.mp hMem
    refine List.mem_map.mpr ⟨(old.decl.name, style.classStart ++ old.decl.name), ?_, rfl⟩
    refine List.mem_filterMap.mpr ⟨old, hOld, ?_⟩
    unfold generatedName?
    rw [hStarts]
    rfl

theorem of_mem_generatedRenames {generated : List ClassDecl} {rename : Text × Text}
    (h : rename ∈ style.generatedRenames generated) :
    rename.2 = style.classStart ++ rename.1 ∧ rename.2 ∈ generated.map ClassDecl.name ∧
      rename.1.head?.any Char.isUpper = true := by
  obtain ⟨decl, hDecl, hRename⟩ := List.mem_filterMap.mp h
  dsimp only at hRename
  split at hRename
  · rename_i hStarts
    split at hRename
    · rename_i hUpper
      obtain rfl := Option.some.inj hRename
      refine ⟨?_, List.mem_map_of_mem hDecl, hUpper⟩
      obtain ⟨base, hBase⟩ := List.isPrefixOf_iff_prefix.mp hStarts
      dsimp only
      rw [← hBase, List.drop_left]
    · cases hRename
  · cases hRename

theorem mem_generatedRenames_iff {generated : List ClassDecl} {word : Text} :
    word ∈ (style.generatedRenames generated).map Prod.fst ↔
      style.classStart ++ word ∈ generated.map ClassDecl.name ∧
        word.head?.any Char.isUpper = true := by
  constructor
  · intro h
    obtain ⟨rename, hRename, rfl⟩ := List.mem_map.mp h
    obtain ⟨hNew, hMem, hUpper⟩ := of_mem_generatedRenames hRename
    rw [hNew] at hMem
    exact ⟨hMem, hUpper⟩
  · rintro ⟨hMem, hUpper⟩
    obtain ⟨decl, hDecl, hName⟩ := List.mem_map.mp hMem
    refine List.mem_map.mpr ⟨(word, decl.name), List.mem_filterMap.mpr ⟨decl, hDecl, ?_⟩, rfl⟩
    have hStarts : decl.name.startsWith style.classStart = true := by
      rw [hName]
      exact List.isPrefixOf_iff_prefix.mpr (List.prefix_append _ _)
    have hBase : decl.name.drop style.classStart.length = word := by rw [hName, List.drop_left]
    dsimp only
    rw [if_pos hStarts, hBase, if_pos hUpper]

theorem snd_of_mem_renames {carried : List OldClass} {generated : List ClassDecl}
    {rename : Text × Text} (h : rename ∈ style.renames carried generated) :
    rename.2 = style.classStart ++ rename.1 := by
  rcases List.mem_append.mp h with hCarried | hGenerated
  · exact (of_mem_carriedRenames hCarried).1
  · exact (of_mem_generatedRenames hGenerated).1

/-- The name of a class that is carried over becomes the name that it is carried over under. -/
theorem renamedBy_renames {carried : List OldClass} {generated : List ClassDecl}
    {old : OldClass} (hOld : old ∈ carried)
    (hOnce : style.classStart ++ style.carriedName old.decl.name ∉ generated.map ClassDecl.name) :
    renamedBy (style.renames carried generated) old.decl.name =
      style.carriedName old.decl.name := by
  have hCarried : renamedBy (style.carriedRenames carried) old.decl.name =
      style.carriedName old.decl.name := by
    have hNone {name : Text} (hName : name.startsWith style.classStart = true) :
        name ∉ (style.carriedRenames carried).map Prod.fst := by
      intro hMem
      rw [(mem_carriedRenames_iff.mp hMem).2] at hName
      cases hName
    rcases style.carriedName_eq_or old.decl.name with ⟨hStarts, hName⟩ | ⟨hStarts, hName⟩
    · rw [hName]
      exact renamedBy_of_not_mem (hNone hStarts)
    · have hAgain := hNone (style.startsWith_carriedName old.decl.name)
      rw [hName] at hAgain ⊢
      apply renamedBy_of_mem (fun rename hRename => (of_mem_carriedRenames hRename).1) hAgain
      exact mem_carriedRenames_iff.mpr ⟨List.mem_map_of_mem hOld, hStarts⟩
  have hGenerated : style.carriedName old.decl.name ∉
      (style.generatedRenames generated).map Prod.fst :=
    fun hMem => hOnce (mem_generatedRenames_iff.mp hMem).1
  have hAll : renamedBy (style.renames carried generated) old.decl.name =
      renamedBy (style.generatedRenames generated)
        (renamedBy (style.carriedRenames carried) old.decl.name) := List.foldl_append
  rw [hAll, hCarried, renamedBy_of_not_mem hGenerated]

end Style

/-! ## What is asked for -/

/-- If a merge succeeds, the classes of its text are found, and among them is every old class
without a match, under the name that the notes report. -/
def Style.BringsClassesBack (style : Style) (generated existing : Text) : Prop :=
  ∀ merged, style.merge generated (some existing) = .ok merged →
    ∃ news olds names, classNames? generated = some news ∧ classNames? existing = some olds ∧
      classNames? merged.text = some names ∧
      ∀ name ∈ olds, name ∉ news → style.carriedName name ∉ news →
        style.carriedName name ∈ names ∧
          Note.carriedOver name (style.generatedName? name) ∈ merged.notes

/-- If no two classes of the generated file share a name, and no two of the old file, a merge
that succeeds gives no two classes one name. -/
def Style.KeepsNamesApart (style : Style) (generated existing : Text) : Prop :=
  ∀ merged, style.merge generated (some existing) = .ok merged →
    ∀ news olds, classNames? generated = some news → classNames? existing = some olds →
      news.Nodup → olds.Nodup → ∃ names, classNames? merged.text = some names ∧ names.Nodup

/-- The text in front of the place that imports are written to. -/
def textAboveImports (text : Text) : Text :=
  if text.pieces.any isImportLine = true then Text.ofLines (linesAbove text)
  else text.take ((firstHead? text).getD 0)

namespace Stages

variable {generated existing : Text}

/-- The sources of the classes that are carried over. -/
def sources (stages : Stages .standard generated existing) : List Text :=
  stages.missing.map fun old => old.decl.source existing

/-- The code of the classes that are carried over, under its new names. -/
def carriedCode (stages : Stages .standard generated existing) : Text :=
  renameAll stages.renames (Text.join ['\n', '\n'] stages.sources)

/-- Classes stand apart from what is written around them, and their names are words. -/
@[mk_iff]
structure KeepsClasses (stages : Stages .standard generated existing) : Prop where
  /-- No two generated classes share a name. -/
  distinct : (stages.classes.map ClassDecl.name).Nodup
  /-- Braces, quotes and comments pair up in what is spliced, and around it. -/
  closed : ∀ decl ∈ stages.classes, Style.standard.GoInto stages.classes stages.old.classes
    decl.name (decl.body generated)
  /-- Nothing is open where the classes that are carried over begin. -/
  behind : stages.missing ≠ [] → IsApart (Text.trimEnd stages.spliced ++ ['\n', '\n'])
  /-- What is carried over for a class is this class and no other. -/
  sources : ∀ old ∈ stages.missing, IsApart (old.decl.source existing ++ ['\n', '\n']) ∧
    namesOf (old.decl.source existing) = [old.decl.name]
  /-- The names behind keywords are whole words. -/
  whole : Reader.start.areWhole (Text.join ['\n', '\n'] stages.sources) = true
  /-- The names that are replaced are words that can be the name of a class. -/
  words : ∀ rename ∈ stages.renames, IsPlainName rename.1
  /-- The name of a carried class is not that of a generated class without its beginning. -/
  once : ∀ old ∈ stages.missing, Style.standard.classStart ++
    Style.standard.carriedName old.decl.name ∉ stages.classes.map ClassDecl.name
  /-- Where imports are written, no class is cut or replaced. -/
  imports : stages.old.imports ≠ [] → IsApart (textAboveImports stages.carried) ∧
    IsAside (Text.ofLines (importBlock stages.carried)) ∧
    ∀ directive ∈ reconcile stages.old.imports (importsOf stages.carried),
      IsAside (directive ++ ['\n'])
  /-- Where the header is put, no class is cut or replaced. -/
  header : ∀ header ∈ stages.old.header, ∀ position ∈ firstHead? stages.imported,
    IsAside (header ++ ['\n', '\n']) ∧ IsAside (stages.imported.take position)

instance (stages : Stages .standard generated existing) : Decidable stages.KeepsClasses :=
  decidable_of_iff' _ (keepsClasses_iff stages)

theorem carried_eq_spliced (stages : Stages .standard generated existing)
    (hMissing : stages.missing = []) : stages.carried = stages.spliced := by
  have hCarrying := stages.carrying
  unfold missing at hMissing
  rw [if_pos (List.isEmpty_iff.mpr hMissing)] at hCarrying
  exact (Except.ok.inj hCarrying).symm

variable {stages : Stages .standard generated existing}

/-! ## The classes of each text -/

/-- The classes with the sections are the generated ones. -/
theorem KeepsClasses.exists_found (h : stages.KeepsClasses) :
    ∃ found, classesOf stages.spliced = .ok found ∧
      found.map ClassDecl.name = stages.classes.map ClassDecl.name := by
  obtain ⟨parts, tail, hText, hParts, hTail, -, hInto, hSpliced⟩ :=
    stages.exists_parts Style.isPlain_standard Style.isVisible_standard h.distinct h.closed
  have hNames {text : Text} {classes : List ClassDecl} (hClasses : classesOf text = .ok classes) :
      classes.map ClassDecl.name = (sitesOf text).map Site.name := by
    rw [names_sitesOf, namesOf_of_classNames? (classNames?_of_classesOf hClasses)]
  have hAre := Style.areParts_partsWithSections Style.isPlain_standard hParts hInto
  have hEnd := (classesOf_eq_ok_iff.mp stages.found).1
  rw [hText, walkBehind_assembled hParts, ← walkBehind_assembled hAre, ← hSpliced] at hEnd
  have hFound := classesOf_eq_ok_iff.mpr ⟨hEnd, rfl⟩
  refine ⟨_, hFound, ?_⟩
  calc _ = (sitesOf stages.spliced).map Site.name := hNames hFound
    _ = parts.map ClassPart.name := by
      rw [hSpliced, names_assembled hAre hTail, Style.names_partsWithSections]
    _ = (sitesOf generated).map Site.name := by rw [hText, names_assembled hParts hTail]
    _ = stages.classes.map ClassDecl.name := (hNames stages.found).symm

/-- What is carried over holds the classes of its parts. -/
theorem KeepsClasses.classBodies?_join (h : stages.KeepsClasses) :
    classBodies? (Text.join ['\n', '\n'] stages.sources) =
      some (stages.missing.flatMap fun old => bodiesOf (old.decl.source existing)) := by
  have hBlanks : ∀ c ∈ ['\n', '\n'], Text.isBlank c = true := by decide
  have hAll := h.sources
  unfold Stages.sources
  generalize stages.missing = carried at hAll
  induction carried with
  | nil => rfl
  | cons old rest ih =>
    obtain ⟨⟨hApart, -⟩, hRest⟩ := List.forall_mem_cons.mp hAll
    have hFront : bodiesOf (old.decl.source existing ++ ['\n', '\n']) =
        bodiesOf (old.decl.source existing) := bodiesOf_append_blanks hBlanks _
    cases rest with
    | nil =>
      have hJoin :
          Text.join ['\n', '\n'] [old.decl.source existing] = old.decl.source existing := by
        simp [Text.join]
      have hAlone := hApart.classBodies?_append []
      rw [List.append_nil, classBodies?_append_blanks hBlanks, hFront] at hAlone
      rw [List.map_singleton, hJoin, hAlone, List.flatMap_singleton]
      exact congrArg some (List.append_nil _)
    | cons next rest =>
      have hJoin : Text.join ['\n', '\n'] ((old :: next :: rest).map fun old =>
          old.decl.source existing) = (old.decl.source existing ++ ['\n', '\n']) ++
            Text.join ['\n', '\n'] ((next :: rest).map fun old => old.decl.source existing) := by
        rw [List.map_cons, List.map_cons, Text.join_cons_cons, List.append_assoc]
      rw [hJoin, hApart.classBodies?_append, ih hRest, hFront]
      rfl

theorem KeepsClasses.map_fst_join (h : stages.KeepsClasses) :
    (stages.missing.flatMap fun old => bodiesOf (old.decl.source existing)).map Prod.fst =
      stages.missing.map fun old => old.decl.name := by
  have hNames : ∀ old ∈ stages.missing,
      (bodiesOf (old.decl.source existing)).map Prod.fst = [old.decl.name] := fun old hOld =>
    (map_fst_bodiesOf _).trans (h.sources old hOld).2
  rw [List.map_flatMap, List.flatMap_congr hNames]
  exact List.map_eq_flatMap.symm

/-- What replaces a name is a name that can be replaced. -/
theorem KeepsClasses.arePlain (h : stages.KeepsClasses) :
    ∀ rename ∈ stages.renames, IsPlainName rename.1 ∧ IsPlainName rename.2 := by
  intro rename hMem
  have hOld := h.words rename hMem
  have hNew : rename.2 = "Xdr".toList ++ rename.1 := Style.snd_of_mem_renames hMem
  have hStart : ∀ c ∈ "Xdr".toList, isNameChar c = true ∧ Text.isWord c = true := by decide
  refine ⟨hOld, ?_⟩
  rw [hNew]
  refine ⟨⟨by simp, fun c hc => ?_, fun c hc => ?_⟩, ?_, ?_, ?_⟩
  · exact (List.mem_append.mp hc).elim (fun hc => (hStart c hc).1) (hOld.isName c)
  · exact (List.mem_append.mp hc).elim (fun hc => (hStart c hc).2) (hOld.isWord c)
  · rintro c ⟨⟩
    rfl
  · rintro ⟨⟩
  · rintro ⟨⟩

/-- The classes that are carried over, under their new names. -/
def carriedBodies (stages : Stages .standard generated existing) : List (Text × Text) :=
  (stages.missing.flatMap fun old => bodiesOf (old.decl.source existing)).map
    (Prod.map (renamedBy stages.renames) (renameAll stages.renames))

theorem KeepsClasses.classBodies?_carriedCode (h : stages.KeepsClasses) :
    classBodies? stages.carriedCode = some stages.carriedBodies := by
  rw [carriedCode, classBodies?_renameAll h.arePlain h.whole, h.classBodies?_join]
  rfl

/-- These are the names that they are carried over under. -/
theorem KeepsClasses.map_fst_carriedBodies (h : stages.KeepsClasses) :
    stages.carriedBodies.map Prod.fst =
      stages.missing.map fun old => Style.standard.carriedName old.decl.name := by
  have hBoth : stages.carriedBodies.map Prod.fst =
      ((stages.missing.flatMap fun old => bodiesOf (old.decl.source existing)).map Prod.fst).map
        (renamedBy stages.renames) := by
    rw [carriedBodies, List.map_map, List.map_map]
    rfl
  rw [hBoth, h.map_fst_join, List.map_map]
  exact List.map_congr_left fun old hOld => Style.renamedBy_renames hOld (h.once old hOld)

theorem KeepsClasses.classNames?_carriedCode (h : stages.KeepsClasses) :
    classNames? stages.carriedCode =
      some (stages.missing.map fun old => Style.standard.carriedName old.decl.name) := by
  rw [classNames?_eq_map, h.classBodies?_carriedCode, Option.map_some, h.map_fst_carriedBodies]

/-- The classes that are carried over stand at the end, below their label. -/
theorem KeepsClasses.carried_eq (h : stages.KeepsClasses) (hMissing : stages.missing ≠ []) :
    stages.carried = (Text.trimEnd stages.spliced ++ ['\n', '\n']) ++
      ((Style.standard.carriedLabel ++ ['\n']) ++ (stages.carriedCode ++ ['\n'])) := by
  obtain ⟨found, hFound, hNames⟩ := h.exists_found
  have hCarrying := stages.carrying
  unfold missing at hMissing
  rw [if_neg (mt List.isEmpty_iff.mp hMissing)] at hCarrying
  obtain ⟨others, hOthers, hCarried⟩ := Style.carryOver_eq_ok_iff.mp hCarrying
  obtain rfl := Except.ok.inj (hFound.symm.trans hOthers)
  have hRenames : Style.standard.renames (Style.standard.missing stages.classes
      stages.old.classes) found = stages.renames := Undisturbed.renames_eq hNames
  rw [hCarried, hRenames]
  simp only [List.append_assoc, carriedCode, Stages.sources, Stages.missing]

/-- The classes with the sections come first, those that are carried over behind them. -/
theorem KeepsClasses.classBodies?_carried (h : stages.KeepsClasses) :
    classBodies? stages.carried = some (bodiesOf stages.spliced ++ stages.carriedBodies) := by
  by_cases hMissing : stages.missing = []
  · obtain ⟨found, hFound, -⟩ := h.exists_found
    have hOutside : (walkBehind stages.spliced).form.isOutside = true := by
      obtain ⟨⟨depth, pending, hWalk⟩, -⟩ := classesOf_eq_ok_iff.mp hFound
      rw [hWalk]
      rfl
    have hNone : stages.carriedBodies = [] := by
      unfold carriedBodies
      rw [hMissing]
      rfl
    rw [stages.carried_eq_spliced hMissing, classBodies?_eq, if_pos hOutside, hNone,
      List.append_nil]
  · have hBlanks : ∀ c ∈ ['\n', '\n'], Text.isBlank c = true := by decide
    have hNewline : ∀ c ∈ ['\n'], Text.isBlank c = true := by decide
    have hFront : bodiesOf (Text.trimEnd stages.spliced ++ ['\n', '\n']) =
        bodiesOf stages.spliced := by
      rw [bodiesOf_append_blanks hBlanks, bodiesOf_trimEnd]
    have hLabel : IsAside (Style.standard.carriedLabel ++ ['\n']) := by decide
    rw [h.carried_eq hMissing, (h.behind hMissing).classBodies?_append, hLabel.classBodies?_append,
      classBodies?_append_blanks hNewline, h.classBodies?_carriedCode, hFront]
    rfl

/-- Lines of their own without classes can be left out. -/
theorem classBodies?_ofLines_append {lines : List Text}
    (h : ∀ line ∈ lines, IsAside (line ++ ['\n'])) (back : Text) :
    classBodies? (Text.ofLines lines ++ back) = classBodies? back := by
  induction lines with
  | nil => rfl
  | cons line rest ih =>
    obtain ⟨hLine, hRest⟩ := List.forall_mem_cons.mp h
    have hText : Text.ofLines (line :: rest) ++ back =
        (line ++ ['\n']) ++ (Text.ofLines rest ++ back) := by
      simp [Text.ofLines]
    rw [hText, hLine.classBodies?_append, ih hRest]

theorem classBodies?_ofLines_pieces (text : Text) :
    classBodies? (Text.ofLines text.pieces) = classBodies? text := by
  rw [Text.ofLines_pieces]
  exact classBodies?_append_blanks (by decide) text

/-- Imports are written in the place of those that are there, each on a line without classes. -/
theorem KeepsClasses.exists_pieces_imported (h : stages.KeepsClasses) :
    stages.imported = stages.carried ∨ stages.old.imports ≠ [] ∧
      ∃ above written behind : List Text,
        stages.carried.pieces = above ++ (importBlock stages.carried ++ behind) ∧
        stages.imported.pieces = above ++ (written ++ behind) ∧
        Text.ofLines above = textAboveImports stages.carried ∧
        ∀ line ∈ written, IsAside (line ++ ['\n']) ∧
          (line ∈ reconcile stages.old.imports (importsOf stages.carried) ∨ line = []) := by
  refine stages.exists_pieces_imported.imp_right ?_
  rintro ⟨hSome, above, behind, more, hPieces, hImported, hWhere⟩
  obtain ⟨-, -, hWritten⟩ := h.imports hSome
  have hFront : Text.ofLines above = textAboveImports stages.carried := by
    unfold textAboveImports
    rcases hWhere with ⟨-, hAny, rfl⟩ | ⟨-, hNone, -, position, hHead, rfl⟩
    · rw [if_pos hAny]
    · rw [if_neg (by rw [hNone]; decide), Option.mem_def.mp hHead]
      exact Text.ofLines_rows (endsLine_of_firstHead? hHead)
  have hMore : ∀ line ∈ more, IsAside (line ++ ['\n']) ∧ line = [] := by
    rcases hWhere with ⟨rfl, -⟩ | ⟨rfl, -⟩
    · nofun
    · decide
  rw [← List.append_assoc _ more] at hImported
  refine ⟨hSome, above, _, behind, hPieces, hImported, hFront, fun line hLine => ?_⟩
  rcases List.mem_append.mp hLine with hMem | hMem
  · exact ⟨hWritten line hMem, .inl hMem⟩
  · exact ⟨(hMore line hMem).1, .inr (hMore line hMem).2⟩

/-- Imports change no class. -/
theorem KeepsClasses.classBodies?_imported (h : stages.KeepsClasses) :
    classBodies? stages.imported = classBodies? stages.carried := by
  rcases h.exists_pieces_imported with hSame | ⟨hSome, above, written, behind, hPieces, hImported,
    hFront, hWritten⟩
  · rw [hSame]
  · obtain ⟨hAbove, hBlock, -⟩ := h.imports hSome
    rw [← hFront] at hAbove
    rw [← classBodies?_ofLines_pieces stages.imported,
      ← classBodies?_ofLines_pieces stages.carried, hPieces, hImported, ofLines_append,
      ofLines_append, ofLines_append, ofLines_append, hAbove.classBodies?_append,
      hAbove.classBodies?_append, hBlock.classBodies?_append,
      classBodies?_ofLines_append fun line hLine => (hWritten line hLine).1]

/-- The header changes no class. -/
theorem KeepsClasses.classBodies?_text (h : stages.KeepsClasses) :
    classBodies? stages.text = classBodies? stages.carried := by
  rw [← h.classBodies?_imported, stages.text_eq]
  cases hHeader : stages.old.header with
  | none => rfl
  | some header =>
    dsimp only
    unfold withHeader
    cases hHead : firstHead? stages.imported with
    | none => rfl
    | some position =>
      obtain ⟨hWritten, hFront⟩ := h.header header hHeader position hHead
      have hImported := hFront.classBodies?_append (stages.imported.drop position)
      rw [List.take_append_drop] at hImported
      rw [hImported, hWritten.classBodies?_append]
      exact classBodies?_trimStart _

/-- The generated classes come first, the others behind them under the names they are carried
over under. -/
theorem KeepsClasses.classNames?_text (h : stages.KeepsClasses) :
    classNames? stages.text = some (stages.classes.map ClassDecl.name ++
      stages.missing.map fun old => Style.standard.carriedName old.decl.name) := by
  obtain ⟨found, hFound, hNames⟩ := h.exists_found
  have hSpliced : (bodiesOf stages.spliced).map Prod.fst = stages.classes.map ClassDecl.name := by
    rw [map_fst_bodiesOf, namesOf_of_classNames? (classNames?_of_classesOf hFound), hNames]
  rw [classNames?_eq_map, h.classBodies?_text, h.classBodies?_carried, Option.map_some,
    List.map_append, hSpliced, h.map_fst_carriedBodies]

end Stages

/-- Every class without a match comes back. -/
theorem missing_classes_come_back {generated existing : Text}
    (h : ∀ stages : Stages .standard generated existing, stages.KeepsClasses) :
    Style.standard.BringsClassesBack generated existing := by
  intro merged hMerge
  obtain ⟨stages, rfl⟩ := mergeExisting_eq_ok_iff.mp hMerge
  have hOlds := classNames?_of_classesOf (OldFile.classesOf_eq stages.read)
  refine ⟨_, _, _, classNames?_of_classesOf stages.found, hOlds, (h stages).classNames?_text, ?_⟩
  intro name hName hNew hCarried
  obtain ⟨_, hDecl, rfl⟩ := List.mem_map.mp hName
  obtain ⟨old, hOld, rfl⟩ := List.mem_map.mp hDecl
  have hMissing : old ∈ stages.missing :=
    Style.mem_missing_iff.mpr ⟨hOld, Style.matchOf?_eq_none_iff.mpr ⟨hNew, hCarried⟩⟩
  exact ⟨List.mem_append_right _ (List.mem_map_of_mem hMissing),
    List.mem_append_right _ (List.mem_map_of_mem hMissing)⟩

/-- A header, imports, a section, a class under another name that uses generated ones, and a class
under its own name. -/
theorem missing_classes_come_back_all :
    ∃ generated existing,
      generated = "// G\nimport 'a';\n\nclass XdrA \x7b\n  int a() => 1;\n\x7d\n".toList ∧
      existing = ("// H\nimport 'b';\nclass A \x7b\n// CUSTOM_CODE_START\nint b = 2;\n" ++
        "// CUSTOM_CODE_END\n\x7d\nclass B \x7b\n  A a; // A\n\x7d\nclass XdrC \x7b\x7d\n").toList ∧
      (∃ stages : Stages .standard generated existing,
        classNames? stages.text = some (["XdrA", "XdrB", "XdrC"].map String.toList)) ∧
      Style.standard.BringsClassesBack generated existing := by
  refine ⟨_, _, rfl, rfl, ?_⟩
  rw [String.toList_append, String.toList_ofList, String.toList_ofList, String.toList_ofList]
  refine ⟨⟨(Stages.find? .standard _ _).get (by decide +kernel), by decide +kernel⟩,
    missing_classes_come_back fun stages => ?_⟩
  rw [Stages.eq stages ((Stages.find? .standard _ _).get (by decide +kernel))]
  decide +kernel

/-- A class that is named with a dollar sign keeps its name, whatever the notes report. -/
theorem dollar_class_not_renamed :
    ¬Style.standard.BringsClassesBack "class XdrA \x7b\n\x7d\n".toList
      "class $Foo \x7b\n\x7d\n".toList := by
  rw [String.toList_ofList, String.toList_ofList]
  intro hBack
  obtain ⟨news, olds, names, hNews, hOlds, hNames, hAll⟩ := hBack _
    (mergeExisting_eq_ok_iff.mpr ⟨(Stages.find? .standard _ _).get (by decide +kernel), rfl⟩)
  obtain rfl : news = ["XdrA".toList] := Option.some.inj (hNews.symm.trans (by decide +kernel))
  obtain rfl : olds = ["$Foo".toList] := Option.some.inj (hOlds.symm.trans (by decide +kernel))
  obtain rfl : names = ["XdrA".toList, "$Foo".toList] :=
    Option.some.inj (hNames.symm.trans (by decide +kernel))
  have hFoo := (hAll "$Foo".toList (by decide +kernel) (by decide +kernel) (by decide +kernel)).1
  revert hFoo
  decide +kernel

/-! ## No name twice -/

/-- No class is carried over beside one that already has its new name. -/
def Stages.HasNoDouble {generated existing : Text} (stages : Stages .standard generated existing) :
    Prop :=
  ∀ old ∈ stages.missing, ∀ newName ∈ Style.standard.generatedName? old.decl.name,
    newName ∉ stages.missing.map fun old => old.decl.name

instance {generated existing : Text} (stages : Stages .standard generated existing) :
    Decidable stages.HasNoDouble :=
  inferInstanceAs (Decidable (∀ old ∈ stages.missing,
    ∀ newName ∈ Style.standard.generatedName? old.decl.name,
      newName ∉ stages.missing.map fun old => old.decl.name))

theorem Style.of_carriedName_eq {style : Style} {first second : Text}
    (h : style.carriedName first = style.carriedName second) : first = second ∨
      style.generatedName? first = some second ∨ style.generatedName? second = some first := by
  have hOther {name : Text} (hStarts : name.startsWith style.classStart = false) :
      style.generatedName? name = some (style.classStart ++ name) := by
    unfold generatedName?
    rw [hStarts]
    rfl
  rcases style.carriedName_eq_or first with ⟨hFirst, hName⟩ | ⟨hFirst, hName⟩ <;>
    rcases style.carriedName_eq_or second with ⟨hSecond, hOtherName⟩ | ⟨hSecond, hOtherName⟩ <;>
      rw [hName, hOtherName] at h
  · exact .inl h
  · exact .inr (.inr (by rw [h, hOther hSecond]))
  · exact .inr (.inl (by rw [← h, hOther hFirst]))
  · exact .inl (List.append_cancel_left h)

/-- The classes that are carried over get different names. -/
theorem Stages.HasNoDouble.nodup_carriedNames {generated existing : Text}
    {stages : Stages .standard generated existing} (h : stages.HasNoDouble)
    (hOlds : (stages.old.classes.map fun old => old.decl.name).Nodup) :
    (stages.missing.map fun old => Style.standard.carriedName old.decl.name).Nodup := by
  have hMissing : (stages.missing.map fun old => old.decl.name).Nodup :=
    hOlds.sublist (List.filter_sublist.map _)
  have hBoth : (stages.missing.map fun old => Style.standard.carriedName old.decl.name) =
      (stages.missing.map fun old => old.decl.name).map Style.standard.carriedName := by
    rw [List.map_map]
    rfl
  rw [hBoth]
  refine List.Nodup.map_on ?_ hMissing
  intro first hFirst second hSecond hSame
  have hClash {name newName : Text} (hName : name ∈ stages.missing.map fun old => old.decl.name)
      (hNewName : newName ∈ stages.missing.map fun old => old.decl.name) :
      Style.standard.generatedName? name ≠ some newName := by
    intro hNew
    obtain ⟨old, hOld, rfl⟩ := List.mem_map.mp hName
    exact h old hOld newName hNew hNewName
  rcases Style.of_carriedName_eq hSame with hEq | hNew | hNew
  · exact hEq
  · exact absurd hNew (hClash hFirst hSecond)
  · exact absurd hNew (hClash hSecond hFirst)

/-- Where classes are kept, no two of a merged text share a name unless two old classes do, or a
class is carried over beside one that already has its new name. -/
theorem class_names_apart {generated existing : Text}
    (h : ∀ stages : Stages .standard generated existing, stages.KeepsClasses) :
    Style.standard.KeepsNamesApart generated existing ↔
      ∀ stages : Stages .standard generated existing,
        (stages.old.classes.map fun old => old.decl.name).Nodup → stages.HasNoDouble := by
  constructor
  · intro hApart stages hOlds old hOld newName hNew hMem
    have hOldNames := classNames?_of_classesOf (OldFile.classesOf_eq stages.read)
    rw [List.map_map] at hOldNames
    obtain ⟨names, hNames, hNodup⟩ := hApart _ (mergeExisting_eq_ok_iff.mpr ⟨stages, rfl⟩) _ _
      (classNames?_of_classesOf stages.found) hOldNames (h stages).distinct hOlds
    obtain rfl := Option.some.inj (hNames.symm.trans (h stages).classNames?_text)
    obtain ⟨other, hOther, rfl⟩ := List.mem_map.mp hMem
    have hCarried := (List.nodup_append.mp hNodup).2.1
    have hStarts := (Style.standard.carriedName_eq_or old.decl.name).resolve_left fun hSame => by
      rw [Style.generatedName?_eq_none_iff.mpr hSame.1] at hNew
      cases hNew
    have hName : Style.standard.carriedName old.decl.name = other.decl.name := by
      unfold Style.carriedName
      rw [Option.mem_def.mp hNew, Option.getD_some]
    have hOtherName : Style.standard.carriedName other.decl.name = other.decl.name := by
      have hBegins := Style.standard.startsWith_carriedName old.decl.name
      rw [hName] at hBegins
      rcases Style.standard.carriedName_eq_or other.decl.name with hSame | hNo
      · exact hSame.2
      · rw [hBegins] at hNo
        cases hNo.1
    obtain rfl := List.inj_on_of_nodup_map hCarried hOld hOther (hName.trans hOtherName.symm)
    rw [← hName, Style.startsWith_carriedName] at hStarts
    cases hStarts.1
  · intro hNoDouble merged hMerge news olds hNews hOlds _ hOldsNodup
    obtain ⟨stages, rfl⟩ := mergeExisting_eq_ok_iff.mp hMerge
    have hOldNames := classNames?_of_classesOf (OldFile.classesOf_eq stages.read)
    rw [List.map_map] at hOldNames
    obtain rfl := Option.some.inj (hOlds.symm.trans hOldNames)
    refine ⟨_, (h stages).classNames?_text, List.nodup_append.mpr ⟨(h stages).distinct,
      (hNoDouble stages hOldsNodup).nodup_carriedNames hOldsNodup, ?_⟩⟩
    rintro name hName _ hCarried rfl
    obtain ⟨old, hOld, rfl⟩ := List.mem_map.mp hCarried
    exact (Style.matchOf?_eq_none_iff.mp (Style.mem_missing_iff.mp hOld).2).2 hName

/-- Two classes that are carried over, one of them under its own name. -/
theorem class_names_apart_two :
    ∃ generated existing, generated = "class XdrA \x7b\x7d\n".toList ∧
      existing = "class B \x7b\x7d\nclass XdrC \x7b\x7d\n".toList ∧
      (∃ stages : Stages .standard generated existing,
        classNames? stages.text = some (["XdrA", "XdrB", "XdrC"].map String.toList)) ∧
      Style.standard.KeepsNamesApart generated existing := by
  refine ⟨_, _, rfl, rfl, ?_⟩
  rw [String.toList_ofList, String.toList_ofList]
  refine ⟨⟨(Stages.find? .standard _ _).get (by decide +kernel), by decide +kernel⟩,
    (class_names_apart fun stages => ?_).mpr fun stages _ => ?_⟩
  · rw [Stages.eq stages ((Stages.find? .standard _ _).get (by decide +kernel))]
    decide +kernel
  · rw [Stages.eq stages ((Stages.find? .standard _ _).get (by decide +kernel))]
    unfold Stages.HasNoDouble
    decide +kernel

/-- A class that stands on the line of another one brings the other one along. -/
theorem second_class_of_line_carried_twice :
    ¬Style.standard.KeepsNamesApart "class XdrA \x7b\n\x7d\n".toList
      "class XdrA \x7b\x7d class B \x7b\x7d\n".toList := by
  rw [String.toList_ofList, String.toList_ofList]
  intro hApart
  obtain ⟨names, hNames, hNodup⟩ := hApart _
    (mergeExisting_eq_ok_iff.mpr ⟨(Stages.find? .standard _ _).get (by decide +kernel), rfl⟩)
    ["XdrA".toList] ["XdrA".toList, "B".toList] (by decide +kernel) (by decide +kernel)
    (by decide +kernel) (by decide +kernel)
  obtain rfl : names = ["XdrA".toList, "XdrA".toList, "XdrB".toList] :=
    Option.some.inj (hNames.symm.trans (by decide +kernel))
  revert hNodup
  decide +kernel

end XdrBindings.Merge
