import XdrBindings.Proofs.Code.ClassParts
import XdrBindings.Proofs.Code.Outline

/-!
# The classes of a text with their bodies

The classes of a text are listed with their names and bodies, positions left out.  Behind a
text that can be read apart come the classes of what follows it, and blanks at the ends change
nothing.

## Main results

* `IsApart.search_append` — the places of the classes of a text that is put together.
* `IsApart.classBodies?_append` — the classes of such a text with their bodies.
* `classBodies?_append_blanks`, `classBodies?_trimStart` — blanks around a text.
* `classNames?_eq_map` — the names of the classes.
-/

namespace XdrBindings.Code

/-! ## The search by marks -/

namespace Walk

theorem search_eq_of_mark?_eq (change : Spot → Spot) {spots : List Spot}
    (h : ∀ spot ∈ spots, (change spot).position = spot.position ∧
      (change spot).mark? = spot.mark?) (walk : Walk) :
    walk.after (spots.map change) = walk.after spots ∧
      walk.sites (spots.map change) = walk.sites spots := by
  induction spots generalizing walk with
  | nil => exact ⟨rfl, rfl⟩
  | cons spot rest ih =>
    obtain ⟨⟨hPosition, hMark⟩, hRest⟩ := List.forall_mem_cons.mp h
    have hNext : walk.next (change spot) = walk.next spot := by
      rw [next_eq, next_eq, hPosition, hMark]
    have hFound : walk.found (change spot) = walk.found spot := by
      rw [found_eq, found_eq, hPosition, hMark]
    obtain ⟨hAfter, hSites⟩ := ih hRest (walk.next spot)
    constructor
    · change (walk.next (change spot)).after (rest.map change) = (walk.next spot).after rest
      rw [hNext, hAfter]
    · rw [List.map_cons, sites, sites, hNext, hFound, hSites]

theorem search_of_mark?_eq_none {spots : List Spot} (h : ∀ spot ∈ spots, spot.mark? = none)
    (walk : Walk) : walk.after spots = walk ∧ walk.sites spots = [] := by
  induction spots generalizing walk with
  | nil => exact ⟨rfl, rfl⟩
  | cons spot rest ih =>
    obtain ⟨hMark, hRest⟩ := List.forall_mem_cons.mp h
    have hNext : walk.next spot = walk := by
      rw [next_eq, hMark]
      rfl
    have hFound : walk.found spot = none := by
      rw [found_eq, hMark]
      rfl
    obtain ⟨hAfter, hSites⟩ := ih hRest walk
    constructor
    · change (walk.next spot).after rest = walk
      rw [hNext, hAfter]
    · rw [sites, hNext, hFound, hSites]
      rfl

end Walk

/-! ## Texts that are put together -/

theorem Walk.eq_outside_of_form_eq {walk : Walk} {depth : Nat}
    (h : walk.form = .outside depth none) : walk = .outside depth none := by
  cases walk with
  | inside name keyword opening depth => cases h
  | outside other pending =>
    cases pending with
    | none =>
      rw [(Form.outside.inj h).1]
    | some head => cases (Form.outside.inj h).2

theorem IsApart.walkBehind_eq {front : Text} (h : IsApart front) :
    walkBehind front = .outside 0 none :=
  Walk.eq_outside_of_form_eq ((form_walkBehind front).trans h.outside)

theorem IsApart.isOutside_walkBehind {front : Text} (h : IsApart front) :
    (walkBehind front).form.isOutside = true := by
  rw [h.walkBehind_eq]
  rfl

/-- Behind a text that can be read apart, the search begins anew. -/
theorem IsApart.search_append {front : Text} (h : IsApart front) (back : Text) :
    sitesOf (front ++ back) = sitesOf front ++ (sitesOf back).map (Site.shift front.length) ∧
      walkBehind (front ++ back) = (walkBehind back).shift front.length := by
  have hSpots : codeSpots (front ++ back) = (codeSpots front).map (Spot.before back) ++
      Reader.start.spotsFrom front.length back := by
    unfold codeSpots
    rw [Reader.start.spotsFrom_append 0 (cut_of_endsLine h.line back), h.after.spotsFrom_eq,
      Nat.zero_add]
  obtain ⟨hAfter, hSites⟩ := Walk.search_eq_of_mark?_eq (Spot.before back)
    (fun spot (hSpot : spot ∈ codeSpots front) => ⟨rfl, (h.before hSpot back).1⟩)
    (.outside 0 none)
  have hWalk : (Walk.outside 0 none).after (codeSpots front) = .outside 0 none := h.walkBehind_eq
  constructor
  · rw [sitesOf, hSpots, Walk.sites_append, hSites, hAfter, hWalk, sites_spotsFrom]
    rfl
  · rw [walkBehind, hSpots, Walk.after_append, hAfter, hWalk, after_spotsFrom]

/-! ## Blanks at the ends -/

theorem Reader.char_mem_of_mem_spotsFrom {reader : Reader} {position : Nat} {text : Text}
    {spot : Spot} (h : spot ∈ reader.spotsFrom position text) : spot.char ∈ text :=
  (Reader.ahead_suffix h).subset List.mem_cons_self

section Blanks

variable {blanks : Text} (h : ∀ c ∈ blanks, Text.isBlank c = true)

include h

theorem Reader.mark?_of_mem_spotsFrom {reader : Reader} {position : Nat} {spot : Spot}
    (hSpot : spot ∈ reader.spotsFrom position blanks) : spot.mark? = none :=
  Spot.mark?_of_isBlank (h _ (Reader.char_mem_of_mem_spotsFrom hSpot))

theorem search_append_blanks (text : Text) :
    sitesOf (text ++ blanks) = sitesOf text ∧ walkBehind (text ++ blanks) = walkBehind text := by
  have hHead : ∀ c ∈ blanks.head?, Text.isBlank c = true := fun c hc =>
    h c (List.mem_of_mem_head? hc)
  have hCut : Cut text blanks := .inl fun c hc => isPlain_of_isBlank (hHead c hc)
  obtain ⟨hAfter, hSites⟩ := Walk.search_eq_of_mark?_eq (Spot.before blanks)
    (fun spot (_ : spot ∈ codeSpots text) =>
      ⟨rfl, Spot.mark?_before hHead fun _ => nameAhead_of_blanks h⟩)
    (.outside 0 none)
  obtain ⟨hBlanksAfter, hBlanksSites⟩ := Walk.search_of_mark?_eq_none
    (fun spot (hSpot : spot ∈ (Reader.start.after text).spotsFrom (0 + text.length) blanks) =>
      Reader.mark?_of_mem_spotsFrom h hSpot) (walkBehind text)
  have hSpots : codeSpots (text ++ blanks) = (codeSpots text).map (Spot.before blanks) ++
      (Reader.start.after text).spotsFrom (0 + text.length) blanks :=
    Reader.start.spotsFrom_append 0 hCut
  constructor
  · rw [sitesOf, hSpots, Walk.sites_append, hSites, hAfter]
    exact (congrArg _ hBlanksSites).trans (List.append_nil _)
  · rw [walkBehind, hSpots, Walk.after_append, hAfter]
    exact hBlanksAfter

theorem search_blanks_append (text : Text) :
    sitesOf (blanks ++ text) = (sitesOf text).map (Site.shift blanks.length) ∧
      walkBehind (blanks ++ text) = (walkBehind text).shift blanks.length := by
  have hCut : Cut blanks text :=
    .inr fun c hc => isPlain_of_isBlank (h c (List.mem_of_mem_getLast? hc))
  have hSpots : codeSpots (blanks ++ text) = (codeSpots blanks).map (Spot.before text) ++
      Reader.start.spotsFrom blanks.length text := by
    have hParts := Reader.start.spotsFrom_append 0 hCut
    rw [Reader.after_start_blanks h, Nat.zero_add] at hParts
    exact hParts
  obtain ⟨hAfter, hSites⟩ := Walk.search_of_mark?_eq_none (by
      show ∀ spot ∈ (codeSpots blanks).map (Spot.before text), spot.mark? = none
      intro spot hSpot
      obtain ⟨other, hOther, rfl⟩ := List.mem_map.mp hSpot
      have hBlank : Text.isBlank other.char = true := h _ (Reader.char_mem_of_mem_spotsFrom hOther)
      exact Spot.mark?_of_isBlank hBlank)
    (.outside 0 none)
  constructor
  · rw [sitesOf, hSpots, Walk.sites_append, hSites, hAfter, sites_spotsFrom]
    rfl
  · rw [walkBehind, hSpots, Walk.after_append, hAfter, after_spotsFrom]

end Blanks

/-! ## Texts that can be read apart -/

/-- The places in code of a text behind which another one is read from its beginning. -/
theorem codeSpots_append {front back : Text} (hCut : Cut front back)
    (hAlike : (Reader.start.after front).Alike .start) :
    codeSpots (front ++ back) = (codeSpots front).map (Spot.before back) ++
      (codeSpots back).map (Spot.shift front.length) := by
  unfold codeSpots
  rw [Reader.start.spotsFrom_append 0 hCut, hAlike.spotsFrom_eq, Reader.start.spotsFrom_add]

theorem Walk.form_shift (count : Nat) (walk : Walk) : (walk.shift count).form = walk.form := by
  rcases walk with ⟨depth, _ | pending⟩ | ⟨name, keyword, opening, depth⟩ <;> rfl

theorem IsApart.of_alike {front back : Text} (h : IsApart (front ++ back)) (hCut : Cut front back)
    (hAlike : (Reader.start.after front).Alike .start)
    (hWalk : walkBehind (front ++ back) = (walkBehind back).shift front.length) :
    IsApart back where
  line := h.line.of_append
  ends := by
    have hEnds := h.ends
    rw [Reader.after_append _ hCut, (hAlike.after back).mode] at hEnds
    exact hEnds
  outside := by
    have hOutside := h.outside
    rw [← form_walkBehind, hWalk, Walk.form_shift, form_walkBehind] at hOutside
    exact hOutside
  keywords spot hSpot := by
    have hMem : spot.shift front.length ∈ codeSpots (front ++ back) := by
      rw [codeSpots_append hCut hAlike]
      exact List.mem_append_right _ (List.mem_map_of_mem hSpot)
    exact h.keywords (spot.shift front.length) hMem

/-- What is left of a text that can be read apart, behind one that can. -/
theorem IsApart.of_append {front back : Text} (hFront : IsApart front)
    (h : IsApart (front ++ back)) : IsApart back :=
  h.of_alike (cut_of_endsLine hFront.line back) hFront.after (hFront.search_append back).2

theorem IsApart.append {front back : Text} (hFront : IsApart front) (hBack : IsApart back) :
    IsApart (front ++ back) where
  line := hFront.line.append hBack.line
  ends := by
    rw [Reader.after_append _ (cut_of_endsLine hFront.line back), (hFront.after.after back).mode]
    exact hBack.ends
  outside := by
    rw [← form_walkBehind, (hFront.search_append back).2, Walk.form_shift, form_walkBehind]
    exact hBack.outside
  keywords spot hSpot := by
    rw [codeSpots_append (cut_of_endsLine hFront.line back) hFront.after] at hSpot
    rcases List.mem_append.mp hSpot with hMem | hMem
    · obtain ⟨other, hOther, rfl⟩ := List.mem_map.mp hMem
      exact (hFront.before hOther back).2
    · obtain ⟨other, hOther, rfl⟩ := List.mem_map.mp hMem
      exact hBack.keywords other hOther

/-- Blanks in front of a text that can be read apart can be left out. -/
theorem IsApart.trimStart {text : Text} (h : IsApart text) : IsApart (Text.trimStart text) := by
  have hText : text.takeWhile Text.isBlank ++ Text.trimStart text = text :=
    List.takeWhile_append_dropWhile
  have hBlanks : ∀ c ∈ text.takeWhile Text.isBlank, Text.isBlank c = true :=
    List.all_eq_true.mp List.all_takeWhile
  have hCut : Cut (text.takeWhile Text.isBlank) (Text.trimStart text) :=
    .inr fun c hc => isPlain_of_isBlank (hBlanks c (List.mem_of_mem_getLast? hc))
  refine IsApart.of_alike (hText.symm ▸ h) hCut ?_ (search_blanks_append hBlanks _).2
  rw [Reader.after_start_blanks hBlanks]
  exact Reader.Alike.refl _

/-- Lines that can be read apart. -/
theorem IsApart.ofLines {lines : List Text} (h : ∀ line ∈ lines, IsApart (line ++ ['\n'])) :
    IsApart (Text.ofLines lines) := by
  induction lines with
  | nil => decide
  | cons line rest ih =>
    obtain ⟨hLine, hRest⟩ := List.forall_mem_cons.mp h
    exact hLine.append (ih hRest)

/-! ## Names and bodies -/

/-- The names of the classes that end in a text, with their bodies. -/
def bodiesOf (text : Text) : List (Text × Text) :=
  (sitesOf text).map fun site => (site.name, site.body text)

/-- The names of the classes of a text with their bodies, if they are found. -/
def classBodies? (text : Text) : Option (List (Text × Text)) :=
  (classesOf text).toOption.map fun classes =>
    classes.map fun decl => (decl.name, decl.body text)

theorem classBodies?_of_classesOf {text : Text} {classes : List ClassDecl}
    (h : classesOf text = .ok classes) :
    classBodies? text = some (classes.map fun decl => (decl.name, decl.body text)) := by
  unfold classBodies?
  rw [h]
  rfl

theorem classNames?_eq_map (text : Text) :
    classNames? text = (classBodies? text).map fun bodies => bodies.map Prod.fst := by
  unfold classNames? classBodies?
  rw [Option.map_map]
  congr 1
  funext classes
  rw [Function.comp_apply, List.map_map]
  rfl

theorem classBodies?_eq (text : Text) : classBodies? text =
    if (walkBehind text).form.isOutside = true then some (bodiesOf text) else none := by
  unfold classBodies?
  rw [classesOf_eq]
  cases walkBehind text with
  | outside depth pending => exact congrArg some List.map_map
  | inside name keyword opening depth => rfl

theorem Walk.isOutside_shift (count : Nat) (walk : Walk) :
    (walk.shift count).form.isOutside = walk.form.isOutside := by
  cases walk <;> rfl

theorem closing_lt_of_mem_sitesOf {text : Text} {site : Site} (h : site ∈ sitesOf text) :
    site.closing < text.length := by
  obtain ⟨spot, hSpot, hClosing⟩ := Walk.exists_of_mem_sites h
  have hLt := Reader.position_lt_of_mem_spotsFrom hSpot
  omega

/-- Bodies stand in a text as they do with more text behind them. -/
theorem map_body_append (front back : Text) :
    (sitesOf front).map (fun site => (site.name, site.body (front ++ back))) = bodiesOf front := by
  refine List.map_congr_left fun site hSite => ?_
  have hBody : site.body (front ++ back) = site.body front :=
    Text.slice_append_left (Nat.le_of_lt (closing_lt_of_mem_sitesOf hSite)) _ _
  rw [hBody]

theorem map_body_shift (front back : Text) :
    ((sitesOf back).map (Site.shift front.length)).map
      (fun site => (site.name, site.body (front ++ back))) = bodiesOf back := by
  rw [List.map_map]
  refine List.map_congr_left fun site _ => ?_
  exact congrArg (Prod.mk site.name) (Site.body_shift front back site)

theorem IsApart.bodiesOf_append {front : Text} (h : IsApart front) (back : Text) :
    bodiesOf (front ++ back) = bodiesOf front ++ bodiesOf back := by
  rw [bodiesOf, (h.search_append back).1, List.map_append, map_body_append, map_body_shift]

/-- The classes of a text behind one that can be read apart. -/
theorem IsApart.classBodies?_append {front : Text} (h : IsApart front) (back : Text) :
    classBodies? (front ++ back) = (classBodies? back).map (bodiesOf front ++ ·) := by
  rw [classBodies?_eq, classBodies?_eq, h.bodiesOf_append, (h.search_append back).2,
    Walk.isOutside_shift]
  split <;> rfl

/-- The classes of a text that is put together are its parts. -/
theorem bodiesOf_assembled {parts : List ClassPart} {tail : Text} (hParts : AreParts parts)
    (hTail : sitesOf tail = []) :
    bodiesOf (assembled parts tail) = parts.map fun part => (part.name, part.body) := by
  rw [bodiesOf, ← List.zip_map', ← List.zip_map', names_assembled hParts hTail,
    bodies_assembled hParts hTail]

theorem map_fst_bodiesOf (text : Text) : (bodiesOf text).map Prod.fst = namesOf text := by
  rw [← names_sitesOf, bodiesOf, List.map_map]
  rfl

theorem IsAside.classBodies?_append {front : Text} (h : IsAside front) (back : Text) :
    classBodies? (front ++ back) = classBodies? back := by
  have hNone : bodiesOf front = [] := by
    rw [← List.map_eq_nil_iff (f := Prod.fst), map_fst_bodiesOf, h.names]
  rw [h.toIsApart.classBodies?_append, hNone]
  exact Option.map_id'

section Blanks

variable {blanks : Text} (h : ∀ c ∈ blanks, Text.isBlank c = true)

include h

theorem bodiesOf_append_blanks (text : Text) : bodiesOf (text ++ blanks) = bodiesOf text := by
  rw [bodiesOf, (search_append_blanks h text).1, map_body_append]

theorem classBodies?_append_blanks (text : Text) :
    classBodies? (text ++ blanks) = classBodies? text := by
  rw [classBodies?_eq, classBodies?_eq, bodiesOf_append_blanks h, (search_append_blanks h text).2]

end Blanks

theorem bodiesOf_trimEnd (text : Text) : bodiesOf (Text.trimEnd text) = bodiesOf text := by
  obtain ⟨blanks, hText, hBlanks⟩ := Text.exists_trimEnd text
  have hSame := bodiesOf_append_blanks hBlanks (Text.trimEnd text)
  rwa [← hText, eq_comm] at hSame

theorem classBodies?_trimStart (text : Text) :
    classBodies? (Text.trimStart text) = classBodies? text := by
  have hBlanks : ∀ c ∈ text.takeWhile Text.isBlank, Text.isBlank c = true :=
    List.all_eq_true.mp List.all_takeWhile
  obtain ⟨hSites, hWalk⟩ := search_blanks_append hBlanks (Text.trimStart text)
  have hBodies := map_body_shift (text.takeWhile Text.isBlank) (Text.trimStart text)
  rw [← hSites] at hBodies
  have hText : text.takeWhile Text.isBlank ++ Text.trimStart text = text :=
    List.takeWhile_append_dropWhile
  rw [hText] at hWalk hBodies
  change bodiesOf text = bodiesOf (Text.trimStart text) at hBodies
  rw [classBodies?_eq, classBodies?_eq, hWalk, Walk.isOutside_shift, hBodies]

end XdrBindings.Code
