import XdrBindings.Proofs.Code.ClassBodies
import XdrBindings.Proofs.Code.Classes
import XdrBindings.Proofs.Code.OutlineRenamed

/-!
# The lines that classes stand on

The search for classes looks at marks only, and passes on the places where they stand.  So the
lines of the keywords and braces of the classes are found as the classes are, with the lines of
the marks in the place of their positions.  Renaming keeps them.

## Main results

* `Walk.sitesAt_map` — the search with other names and places.
* `lineSites_eq` — the lines of the classes, by the lines of the marks.
* `lineSites_renameWord` — the lines of the classes of a renamed text.
-/

namespace XdrBindings.Code

/-! ## The search with other places -/

/-- The site with another name and other places. -/
def Site.map (rename : Text → Text) (move : Nat → Nat) (site : Site) : Site :=
  ⟨rename site.name, move site.keyword, move site.opening, move site.closing⟩

namespace Walk

/-- The walk with other names and places. -/
def map (rename : Text → Text) (move : Nat → Nat) : Walk → Walk
  | .outside depth pending => .outside depth (pending.map (Prod.map rename move))
  | .inside name keyword opening depth =>
    .inside (rename name) (move keyword) (move opening) depth

/-- The classes that marks at places end. -/
def sitesAt : Walk → List (Mark × Nat) → List Site
  | _, [] => []
  | walk, (mark, place) :: rest =>
    (walk.foundAt place mark).toList ++ (walk.nextAt place mark).sitesAt rest

section Map

variable (rename : Text → Text) (move : Nat → Nat)

theorem nextAt_map (walk : Walk) (place : Nat) (mark : Mark) :
    (walk.map rename move).nextAt (move place) (mark.map rename) =
      (walk.nextAt place mark).map rename move := by
  rcases walk with ⟨_ | depth, _ | head⟩ | ⟨name, keyword, opening, _ | depth⟩ <;>
    cases mark <;> rfl

theorem foundAt_map (walk : Walk) (place : Nat) (mark : Mark) :
    (walk.map rename move).foundAt (move place) (mark.map rename) =
      (walk.foundAt place mark).map (Site.map rename move) := by
  rcases walk with ⟨depth, pending⟩ | ⟨name, keyword, opening, _ | depth⟩ <;> cases mark <;> rfl

theorem sitesAt_map (walk : Walk) (marks : List (Mark × Nat)) :
    (walk.map rename move).sitesAt (marks.map (Prod.map (Mark.map rename) move)) =
      (walk.sitesAt marks).map (Site.map rename move) := by
  induction marks generalizing walk with
  | nil => rfl
  | cons mark rest ih =>
    obtain ⟨mark, place⟩ := mark
    change ((walk.map rename move).foundAt (move place) (mark.map rename)).toList ++
      ((walk.map rename move).nextAt (move place) (mark.map rename)).sitesAt _ = _
    rw [foundAt_map, nextAt_map, ih, sitesAt, List.map_append, Option.toList_map]

end Map

/-- The search looks at marks only. -/
theorem sites_eq (walk : Walk) (spots : List Spot) :
    walk.sites spots =
      walk.sitesAt (spots.filterMap fun spot => spot.mark?.map (·, spot.position)) := by
  induction spots generalizing walk with
  | nil => rfl
  | cons spot rest ih =>
    rw [sites, found_eq, next_eq, ih]
    cases hMark : spot.mark? with
    | none => rw [List.filterMap_cons_none (by rw [hMark]; rfl)]; rfl
    | some mark => rw [List.filterMap_cons_some (by rw [hMark]; rfl)]; rfl

end Walk

/-! ## Lines -/

/-- The classes of a text, with the lines of their keywords and braces. -/
def lineSites (text : Text) : List Site := (sitesOf text).map (Site.map id text.lineOf)

theorem lineSites_eq (text : Text) :
    lineSites text = (Walk.outside 0 none).sitesAt (Reader.start.landmarks 1 text) := by
  have hLines : Reader.start.landmarks 1 text =
      ((codeSpots text).filterMap fun spot => spot.mark?.map (·, spot.position)).map
        (Prod.map (Mark.map id) text.lineOf) := by
    have hSame (mark : Mark) : mark.map id = mark := by cases mark <;> rfl
    rw [Reader.landmarks_eq _ _ 0, List.map_filterMap]
    refine List.filterMap_congr fun spot _ => ?_
    rw [Option.map_map]
    refine Option.map_congr fun mark _ => ?_
    show (mark, 1 + _) = (mark.map id, _ + 1)
    rw [hSame, Nat.add_comm]
    rfl
  rw [hLines, lineSites, sitesOf, Walk.sites_eq]
  exact (Walk.sitesAt_map id text.lineOf (.outside 0 none) _).symm

/-- Renaming a name keeps the lines of the classes. -/
theorem lineSites_renameWord {old new : Text} (hOld : IsPlainName old) (hNew : IsPlainName new)
    {text : Text} (hWhole : Reader.start.areWhole text = true) :
    lineSites (renameWord old new text) =
      (lineSites text).map (Site.map (renamedName old new) id) := by
  rw [lineSites_eq, (landmarks_renameWord hOld hNew hWhole 1).1, lineSites_eq]
  exact Walk.sitesAt_map _ id (.outside 0 none) _

/-! ## The lines of braces -/

/-- The lines of the braces of the classes of a text. -/
def blockLines (text : Text) : List (Nat × Nat) :=
  (sitesOf text).map fun site => (text.lineOf site.opening, text.lineOf site.closing)

theorem blockLines_eq (text : Text) :
    blockLines text = (lineSites text).map fun site => (site.opening, site.closing) := by
  rw [lineSites, List.map_map]
  rfl

/-- What stands behind a text changes no line of its classes. -/
theorem map_lineOf_append (front back : Text) :
    ((sitesOf front).map fun site =>
        (Text.lineOf (front ++ back) site.opening, Text.lineOf (front ++ back) site.closing)) =
      blockLines front := by
  refine List.map_congr_left fun site hSite => ?_
  have hClosing := closing_lt_of_mem_sitesOf hSite
  have hOpening := (matches_of_mem_sitesOf hSite).lt
  exact congrArg₂ Prod.mk (Text.lineOf_append (by omega) back) (Text.lineOf_append (by omega) back)

/-- What stands in front of a text moves the lines of its classes down. -/
theorem map_lineOf_shift (front back : Text) :
    (((sitesOf back).map (Site.shift front.length)).map fun site =>
        (Text.lineOf (front ++ back) site.opening, Text.lineOf (front ++ back) site.closing)) =
      (blockLines back).map (Prod.map (· + front.count '\n') (· + front.count '\n')) := by
  rw [blockLines, List.map_map, List.map_map]
  exact List.map_congr_left fun site _ => congrArg₂ Prod.mk
    (Text.lineOf_append_right front back _) (Text.lineOf_append_right front back _)

/-- Blocks stand on the lines that they stand on alone, behind a text that can be read apart. -/
theorem blockLines_append {front : Text} (h : IsApart front) (back : Text) :
    blockLines (front ++ back) = blockLines front ++
      (blockLines back).map (Prod.map (· + front.count '\n') (· + front.count '\n')) := by
  rw [← map_lineOf_append front back, ← map_lineOf_shift, ← List.map_append,
    ← (h.search_append back).1, blockLines]

section Blanks

variable {blanks : Text} (h : ∀ c ∈ blanks, Text.isBlank c = true)

include h

theorem blockLines_append_blanks (text : Text) : blockLines (text ++ blanks) = blockLines text := by
  rw [← map_lineOf_append text blanks, ← (search_append_blanks h text).1, blockLines]

theorem blockLines_blanks_append (text : Text) :
    blockLines (blanks ++ text) =
      (blockLines text).map (Prod.map (· + blanks.count '\n') (· + blanks.count '\n')) := by
  rw [← map_lineOf_shift, ← (search_blanks_append h text).1, blockLines]

end Blanks

/-! ## The lines of parts -/

/-- The lines of the braces of parts that stand one behind the other. -/
def partLines : Nat → List ClassPart → List (Nat × Nat)
  | _, [] => []
  | line, part :: rest =>
    (line + part.front.count '\n', line + part.front.count '\n' + part.body.count '\n') ::
      partLines (line + part.front.count '\n' + part.body.count '\n') rest

theorem ClassPart.count_text (part : ClassPart) :
    part.text.count '\n' = part.front.count '\n' + part.body.count '\n' := by
  simp [ClassPart.text]

theorem ClassPart.lines_site (part : ClassPart) (keyword : Nat) (back : Text) :
    Text.lineOf (part.text ++ back) (part.site keyword).opening = part.front.count '\n' + 1 ∧
      Text.lineOf (part.text ++ back) (part.site keyword).closing =
        part.front.count '\n' + part.body.count '\n' + 1 := by
  have hOpening : (part.text ++ back).take part.front.length = part.front := by
    rw [part.text_append, List.take_left]
  have hClosing : (part.text ++ back).take (part.front.length + 1 + part.body.length) =
      part.front ++ '{' :: part.body := by
    have hText : part.text ++ back = (part.front ++ '{' :: part.body) ++ '}' :: back := by
      simp [ClassPart.text]
    have hLength : part.front.length + 1 + part.body.length =
        (part.front ++ '{' :: part.body).length := by
      rw [List.length_append, List.length_cons]
      omega
    rw [hText, hLength, List.take_left]
  constructor
  · show ((part.text ++ back).take part.front.length).count '\n' + 1 = _
    rw [hOpening]
  · show ((part.text ++ back).take (part.front.length + 1 + part.body.length)).count '\n' + 1 = _
    rw [hClosing, List.count_append, List.count_cons_of_ne (by decide)]

/-- The classes of a text that is put together stand on the lines of its parts. -/
theorem blockLines_assembled {parts : List ClassPart} {tail : Text} (hParts : AreParts parts)
    (hTail : sitesOf tail = []) (line : Nat) :
    (blockLines (assembled parts tail)).map (Prod.map (· + line) (· + line)) =
      partLines (line + 1) parts := by
  induction parts generalizing line with
  | nil =>
    rw [assembled, blockLines, hTail]
    rfl
  | cons part rest ih =>
    obtain ⟨⟨keyword, hPart⟩, hRest⟩ := List.forall_mem_cons.mp hParts
    obtain ⟨hOpening, hClosing⟩ := part.lines_site keyword (assembled rest tail)
    have hLine : line + 1 + part.front.count '\n' + part.body.count '\n' =
        part.text.count '\n' + line + 1 := by
      rw [ClassPart.count_text]
      omega
    have hMove : Prod.map (· + line) (· + line) ∘
        Prod.map (· + part.text.count '\n') (· + part.text.count '\n') =
          Prod.map (· + (part.text.count '\n' + line)) (· + (part.text.count '\n' + line)) := by
      rw [Prod.map_comp_map]
      exact congrArg₂ Prod.map (funext fun place => Nat.add_assoc _ _ _)
        (funext fun place => Nat.add_assoc _ _ _)
    rw [assembled, blockLines, hPart.sitesOf_eq, List.map_cons, List.map_cons, hOpening, hClosing,
      map_lineOf_shift, List.map_map, hMove, ih hRest, partLines, hLine]
    refine congrArg (List.cons · _) (Prod.ext ?_ ?_)
    · show part.front.count '\n' + 1 + line = _
      omega
    · show part.front.count '\n' + part.body.count '\n' + 1 + line = _
      omega

end XdrBindings.Code
