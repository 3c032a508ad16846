import XdrBindings.Proofs.Code.ClassWalk

/-!
# Giving a class another body

A class that is found can be given any closed body: the search then finds the same classes
in the same order, and the bodies of all others stay as they were, character for character.
The classes in front of it end before its opening brace, and those behind it move as a
whole.

## Main results

* `slice_append_left`, `slice_append_right` — the text between two places of one part.
* `ClassSplit.bodies_eq` — the bodies that are found.
* `start_lt_opening`, `isName_name` — the lines and the name of a declaration.
* `isClosed_body` — the body of a class is closed.
* `classesOf_withBody` — the classes of a text where one class has another body.
* `bodyOf?_withBody` — the same for classes asked for by their names.
-/

namespace XdrBindings.Text

theorem slice_append_left {front : Text} {stop : Nat} (h : stop ≤ front.length) (back : Text)
    (start : Nat) : slice (front ++ back) start stop = slice front start stop := by
  unfold slice
  by_cases hStart : start ≤ front.length
  · rw [List.drop_append_of_le_length hStart, List.take_append_of_le_length]
    rw [List.length_drop]
    omega
  · have hNone : stop - start = 0 := by omega
    rw [hNone, List.take_zero, List.take_zero]

theorem slice_append_right (front back : Text) (start stop : Nat) :
    slice (front ++ back) (start + front.length) (stop + front.length) =
      slice back start stop := by
  have hLength : stop + front.length - (start + front.length) = stop - start := by omega
  unfold slice
  rw [hLength, Nat.add_comm start, List.drop_append]
  have hFront : front.drop (front.length + start) = [] :=
    List.drop_eq_nil_of_le (Nat.le_add_right _ _)
  have hBack : front.length + start - front.length = start := by omega
  rw [hFront, hBack, List.nil_append]

theorem slice_middle (front middle back : Text) :
    slice (front ++ (middle ++ back)) front.length (front.length + middle.length) = middle := by
  have hSlice := slice_append_right front (middle ++ back) 0 middle.length
  rw [Nat.zero_add, Nat.add_comm middle.length] at hSlice
  rw [hSlice, slice_append_left (Nat.le_refl _)]
  show middle.take middle.length = middle
  exact List.take_length

/-- The text between two places around a part keeps that part. -/
theorem slice_around {front middle : Text} {start stop : Nat} (hStart : start ≤ front.length)
    (hStop : front.length + middle.length ≤ stop) (back : Text) :
    slice (front ++ (middle ++ back)) start stop =
      front.drop start ++ (middle ++ back.take (stop - (front.length + middle.length))) := by
  have hRest : stop - start = (front.drop start).length +
      (middle.length + (stop - (front.length + middle.length))) := by
    rw [List.length_drop]
    omega
  unfold slice
  rw [List.drop_append_of_le_length hStart, hRest, List.take_length_add_append,
    List.take_length_add_append]

end XdrBindings.Text

namespace XdrBindings.Code

/-! ## The bodies of the other classes -/

theorem Walk.exists_of_mem_sites {walk : Walk} {spots : List Spot} {site : Site}
    (h : site ∈ walk.sites spots) : ∃ spot ∈ spots, site.closing = spot.position := by
  induction spots generalizing walk with
  | nil => cases h
  | cons spot rest ih =>
    rcases List.mem_append.mp h with hFound | hRest
    · have hSite : walk.found spot = some site := by simpa using hFound
      exact ⟨spot, List.mem_cons_self, (of_found_eq_some hSite).2.2.1⟩
    · obtain ⟨other, hMem, hClosing⟩ := ih hRest
      exact ⟨other, List.mem_cons_of_mem _ hMem, hClosing⟩

theorem Reader.position_lt_of_mem_spotsFrom {reader : Reader} {position : Nat} {text : Text}
    {spot : Spot} (h : spot ∈ reader.spotsFrom position text) :
    spot.position < position + text.length := by
  have hUnit : (spot.position, spot.char) ∈ reader.codeFrom position text := by
    rw [← map_spotsFrom]
    exact List.mem_map_of_mem h
  obtain ⟨index, hPosition, hChar, -⟩ := mem_codeFrom.mp hUnit
  obtain ⟨hIndex, -⟩ := List.getElem?_eq_some_iff.mp hChar
  change spot.position = position + index at hPosition
  omega

theorem Site.body_shift (front back : Text) (site : Site) :
    (site.shift front.length).body (front ++ back) = site.body back := by
  unfold Site.body Site.shift
  rw [Nat.add_right_comm]
  exact Text.slice_append_right front back _ _

namespace ClassSplit

variable {text front body back : Text} {earlier later : List Site} {site : Site}

/-- The classes in front end before the opening brace. -/
theorem closing_lt (h : ClassSplit text earlier site later front body back) {other : Site}
    (hOther : other ∈ earlier) : other.closing < front.length := by
  rw [← h.earlier_eq] at hOther
  obtain ⟨spot, hSpot, hClosing⟩ := Walk.exists_of_mem_sites hOther
  have hPosition := Reader.position_lt_of_mem_spotsFrom hSpot
  omega

/-- The body of the class, whatever stands there. -/
theorem body_resized (site : Site) (front other back : Text) :
    (resized site front other).body (front ++ '{' :: (other ++ '}' :: back)) = other := by
  have hText : front ++ '{' :: (other ++ '}' :: back) =
      (front ++ ['{']) ++ (other ++ '}' :: back) := by simp
  have hSlice := Text.slice_middle (front ++ ['{']) other ('}' :: back)
  rw [List.length_append, List.length_singleton] at hSlice
  show Text.slice _ (front.length + 1) (front.length + 1 + other.length) = other
  rw [hText]
  exact hSlice

theorem body_eq (h : ClassSplit text earlier site later front body back) :
    site.body text = body := by
  have hSite : site.body text = (resized site front body).body text := by
    show Text.slice _ _ _ = Text.slice _ _ _
    rw [h.opening_eq, h.closing_eq]
    rfl
  rw [hSite, h.text_eq, body_resized]

/-- What is found with another closed body: that body at the place of its class, and all
other bodies as they were. -/
theorem bodies_eq (h : ClassSplit text earlier site later front body back) {other : Text}
    (hOther : IsClosed other) :
    (sitesOf (front ++ '{' :: (other ++ '}' :: back))).map
        (Site.body · (front ++ '{' :: (other ++ '}' :: back))) =
      earlier.map (Site.body · front) ++ other :: (sitesOf back).map (Site.body · back) := by
  have hEarlier : earlier.map (Site.body · (front ++ '{' :: (other ++ '}' :: back))) =
      earlier.map (Site.body · front) := by
    refine List.map_congr_left fun before hBefore => ?_
    exact Text.slice_append_left (Nat.le_of_lt (h.closing_lt hBefore)) _ _
  have hFront : front ++ '{' :: (other ++ '}' :: back) =
      (front ++ '{' :: (other ++ ['}'])) ++ back := by simp
  have hLength : (front ++ '{' :: (other ++ ['}'])).length =
      front.length + 1 + other.length + 1 := by
    simp
    omega
  have hLater : ((sitesOf back).map (Site.shift (front.length + 1 + other.length + 1))).map
      (Site.body · (front ++ '{' :: (other ++ '}' :: back))) =
        (sitesOf back).map (Site.body · back) := by
    rw [List.map_map]
    refine List.map_congr_left fun behind _ => ?_
    show (behind.shift _).body _ = _
    rw [hFront, ← hLength]
    exact Site.body_shift _ _ _
  rw [h.sites_eq hOther, List.map_append, List.map_cons, body_resized, hEarlier, hLater]

theorem names_eq (h : ClassSplit text earlier site later front body back) {other : Text}
    (hOther : IsClosed other) :
    (sitesOf (front ++ '{' :: (other ++ '}' :: back))).map Site.name =
      earlier.map Site.name ++ site.name :: (sitesOf back).map Site.name := by
  rw [h.sites_eq hOther, List.map_append, List.map_cons, List.map_map]
  rfl

end ClassSplit

/-! ## The classes of a text -/

/-- A text with another body for one of its classes. -/
def withBody (text : Text) (decl : ClassDecl) (body : Text) : Text :=
  text.take decl.opening ++ '{' :: (body ++ text.drop decl.closing)

theorem ClassSplit.withBody_eq {text front body back : Text} {earlier later : List Site}
    {site : Site} (h : ClassSplit text earlier site later front body back)
    (heads : List LineHead) (other : Text) :
    withBody text (site.decl heads) other = front ++ '{' :: (other ++ '}' :: back) := by
  have hTake : text.take site.opening = front := by
    rw [h.text_eq, h.opening_eq, List.take_left]
  have hText : text = (front ++ '{' :: body) ++ '}' :: back := by simp [h.text_eq]
  have hLength : site.closing = (front ++ '{' :: body).length := by
    rw [h.closing_eq]
    simp
    omega
  have hDrop : text.drop site.closing = '}' :: back := by
    rw [hText, hLength, List.drop_left]
  show text.take site.opening ++ '{' :: (other ++ text.drop site.closing) = _
  rw [hTake, hDrop]

/-- The place of a class among those that are found. -/
theorem exists_site {text : Text} {classes first last : List ClassDecl} {decl : ClassDecl}
    (hClasses : classesOf text = .ok classes) (hDecl : classes = first ++ decl :: last) :
    ∃ earlier site later, sitesOf text = earlier ++ site :: later ∧
      earlier.length = first.length ∧ site.decl (LineHead.ofText text) = decl := by
  obtain ⟨-, hSites⟩ := classesOf_eq_ok_iff.mp hClasses
  obtain ⟨earlier, others, hSplit, hFirst, hOthers⟩ :=
    List.map_eq_append_iff.mp (hSites.symm.trans hDecl)
  obtain ⟨site, later, rfl, hSite, -⟩ := List.map_eq_cons_iff.mp hOthers
  exact ⟨earlier, site, later, hSplit, by rw [← hFirst, List.length_map], hSite⟩

/-- The body of a class that is found is closed. -/
theorem isClosed_body {text : Text} {classes : List ClassDecl} {decl : ClassDecl}
    (hClasses : classesOf text = .ok classes) (hDecl : decl ∈ classes) :
    IsClosed (decl.body text) := by
  obtain ⟨first, last, hSplit⟩ := List.append_of_mem hDecl
  obtain ⟨earlier, site, later, hSites, -, rfl⟩ := exists_site hClasses hSplit
  obtain ⟨front, body, back, hParts⟩ := exists_classSplit hSites
  show IsClosed (site.body text)
  rw [hParts.body_eq]
  exact hParts.closed

/-- A closed body for a class leaves the names of all classes and the bodies of all other
classes as they are. -/
theorem classesOf_withBody {text : Text} {classes first last : List ClassDecl}
    {decl : ClassDecl} (hClasses : classesOf text = .ok classes)
    (hDecl : classes = first ++ decl :: last) {other : Text} (hOther : IsClosed other) :
    ∃ found, classesOf (withBody text decl other) = .ok found ∧
      found.map ClassDecl.name = classes.map ClassDecl.name ∧
      found.map (ClassDecl.body · (withBody text decl other)) =
        (classes.map (ClassDecl.body · text)).set first.length other := by
  obtain ⟨earlier, site, later, hSites, hLength, rfl⟩ := exists_site hClasses hDecl
  obtain ⟨⟨depth, pending, hWalk⟩, hFound⟩ := classesOf_eq_ok_iff.mp hClasses
  obtain ⟨front, body, back, hSplit⟩ := exists_classSplit hSites
  -- the text itself is the case of its own body
  have hNames := hSplit.names_eq hSplit.closed
  have hBodies := hSplit.bodies_eq hSplit.closed
  have hBehind := hSplit.walkBehind_eq hSplit.closed
  rw [← hSplit.text_eq] at hNames hBodies hBehind
  have hOutside : ∃ depth pending, walkBehind back = .outside depth pending := by
    rw [hWalk] at hBehind
    cases hBack : walkBehind back with
    | outside depth pending => exact ⟨depth, pending, rfl⟩
    | inside name keyword opening depth =>
      rw [hBack] at hBehind
      cases hBehind
  obtain ⟨depthBack, pendingBack, hBack⟩ := hOutside
  have hEnd : ∃ depth pending,
      walkBehind (front ++ '{' :: (other ++ '}' :: back)) = .outside depth pending := by
    rw [hSplit.walkBehind_eq hOther, hBack]
    exact ⟨_, _, rfl⟩
  rw [hSplit.withBody_eq]
  refine ⟨_, classesOf_eq_ok_iff.mpr ⟨hEnd, rfl⟩, ?_, ?_⟩
  · have hName (heads : List LineHead) : ClassDecl.name ∘ Site.decl heads = Site.name := rfl
    rw [hFound, List.map_map, List.map_map, hName, hName, hNames, hSplit.names_eq hOther]
  · have hBody (heads : List LineHead) (text : Text) :
        (ClassDecl.body · text) ∘ Site.decl heads = (Site.body · text) := rfl
    rw [hFound, List.map_map, List.map_map, hBody, hBody, hBodies, hSplit.bodies_eq hOther,
      ← hLength]
    simp

/-! ## Where a declaration lies -/

/-- A keyword that waits for its block has been read. -/
theorem Walk.exists_of_after_waiting {spots : List Spot} {depth keyword : Nat} {name : Text}
    (h : (Walk.outside 0 none).after spots = .outside depth (some (name, keyword))) :
    ∃ spot ∈ spots, spot.head? = some (name, keyword) := by
  induction spots using List.reverseRecOn generalizing depth with
  | nil => cases h
  | append_singleton spots last ih =>
    have hEarlier (h : ∃ spot ∈ spots, spot.head? = some (name, keyword)) :
        ∃ spot ∈ spots ++ [last], spot.head? = some (name, keyword) := by
      obtain ⟨spot, hMem, hHead⟩ := h
      exact ⟨spot, List.mem_append_left _ hMem, hHead⟩
    rw [after_append] at h
    change ((Walk.outside 0 none).after spots).next last = _ at h
    cases hWalk : (Walk.outside 0 none).after spots with
    | inside other otherKeyword opening opened =>
      rw [hWalk] at h
      simp only [next] at h
      split at h <;> cases h
    | outside opened pending =>
      rw [hWalk] at h
      simp only [next, stepOutside] at h
      split at h
      · split at h
        · cases h
        · cases h
          exact hEarlier (ih hWalk)
      · split at h
        · cases h
          exact hEarlier (ih hWalk)
        · split at h
          · cases h
          · split at h
            · -- the keyword is the last character itself
              obtain ⟨-, hHead⟩ := Walk.outside.inj h
              exact ⟨last, by simp, hHead⟩
            · cases h
              exact hEarlier (ih hWalk)

/-- Whether a text is a name of a class: characters of names, one at least. -/
def IsName (name : Text) : Prop := name ≠ [] ∧ ∀ c ∈ name, isNameChar c = true

theorem IsName.not_mem {name : Text} (h : IsName name) {c : Char} (hc : isNameChar c = false) :
    c ∉ name := by
  intro hMem
  rw [h.2 c hMem] at hc
  cases hc

theorem Spot.of_head? {spot : Spot} {name : Text} {keyword : Nat}
    (h : spot.head? = some (name, keyword)) :
    spot.position = keyword ∧ IsName name := by
  unfold head? at h
  split at h
  · obtain ⟨other, hName, hEq⟩ := Option.map_eq_some_iff.mp h
    obtain ⟨rfl, rfl⟩ := Prod.mk.inj hEq
    refine ⟨rfl, ?_⟩
    unfold nameAhead at hName
    dsimp only at hName
    split at hName
    · cases hName
    · rename_i first rest hTake
      split at hName
      · cases hName
      · obtain rfl := Option.some.inj hName
        rw [hTake]
        refine ⟨List.cons_ne_nil _ _, ?_⟩
        rw [← hTake]
        exact List.all_eq_true.mp List.all_takeWhile
  · cases h

theorem ClassSplit.keyword_lt {text front body back : Text} {earlier later : List Site}
    {site : Site} (h : ClassSplit text earlier site later front body back) :
    site.keyword < site.opening := by
  obtain ⟨spot, hSpot, hHead⟩ := Walk.exists_of_after_waiting h.waiting
  have hLt := Reader.position_lt_of_mem_spotsFrom hSpot
  have hSame : spot.position = site.keyword := (Spot.of_head? hHead).1
  rw [h.opening_eq]
  omega

/-- A declaration begins in front of its opening brace, and its closing brace is one. -/
theorem start_lt_opening {text : Text} {classes : List ClassDecl} {decl : ClassDecl}
    (hClasses : classesOf text = .ok classes) (hDecl : decl ∈ classes) :
    decl.start < decl.opening ∧ text[decl.closing]? = some '}' := by
  obtain ⟨first, last, hSplit⟩ := List.append_of_mem hDecl
  obtain ⟨earlier, site, later, hSites, -, rfl⟩ := exists_site hClasses hSplit
  obtain ⟨front, body, back, hParts⟩ := exists_classSplit hSites
  constructor
  · have hStart := LineHead.declaration_ofPosition_le text site.keyword
    have hKeyword := hParts.keyword_lt
    show (LineHead.ofPosition (LineHead.ofText text) site.keyword).declaration < site.opening
    omega
  · show text[site.closing]? = some '}'
    have hText : text = (front ++ '{' :: body) ++ '}' :: back := by simp [hParts.text_eq]
    have hLength : site.closing = (front ++ '{' :: body).length := by
      rw [hParts.closing_eq]
      simp
      omega
    rw [hText, hLength, List.getElem?_append_right (Nat.le_refl _), Nat.sub_self]
    rfl

/-- The name of a class that is found. -/
theorem isName_name {text : Text} {classes : List ClassDecl} {decl : ClassDecl}
    (hClasses : classesOf text = .ok classes) (hDecl : decl ∈ classes) : IsName decl.name := by
  obtain ⟨first, last, hSplit⟩ := List.append_of_mem hDecl
  obtain ⟨earlier, site, later, hSites, -, rfl⟩ := exists_site hClasses hSplit
  obtain ⟨front, body, back, hParts⟩ := exists_classSplit hSites
  obtain ⟨spot, -, hHead⟩ := Walk.exists_of_after_waiting hParts.waiting
  exact (Spot.of_head? hHead).2

/-! ## Bodies by name -/

/-- The body of the first class with a given name. -/
def bodyOf? (text : Text) (classes : List ClassDecl) (name : Text) : Option Text :=
  (classes.find? fun decl => decl.name == name).map fun decl => decl.body text

theorem bodyOf?_eq (text : Text) (classes : List ClassDecl) (name : Text) :
    bodyOf? text classes name =
      ((classes.map fun decl => (decl.name, decl.body text)).find? (·.1 == name)).map
        Prod.snd := by
  unfold bodyOf?
  rw [List.find?_map, Option.map_map]
  rfl

/-- A class stands in its text as its body between two braces, and another body would stand
in the same place. -/
theorem exists_withBody_eq {text : Text} {classes : List ClassDecl} {decl : ClassDecl}
    (hClasses : classesOf text = .ok classes) (hDecl : decl ∈ classes) :
    ∃ front back, text = front ++ '{' :: (decl.body text ++ '}' :: back) ∧
      ∀ other, withBody text decl other = front ++ '{' :: (other ++ '}' :: back) := by
  obtain ⟨first, last, hSplit⟩ := List.append_of_mem hDecl
  obtain ⟨earlier, site, later, hSites, -, rfl⟩ := exists_site hClasses hSplit
  obtain ⟨front, body, back, hParts⟩ := exists_classSplit hSites
  refine ⟨front, back, ?_, hParts.withBody_eq _⟩
  show text = front ++ '{' :: (site.body text ++ '}' :: back)
  rw [hParts.body_eq]
  exact hParts.text_eq

/-- A class that is asked for stands in its text as its body between two braces. -/
theorem exists_of_bodyOf? {text name body : Text} {classes : List ClassDecl}
    (hClasses : classesOf text = .ok classes) (hBody : bodyOf? text classes name = some body) :
    ∃ front back, text = front ++ '{' :: (body ++ '}' :: back) := by
  obtain ⟨decl, hFind, rfl⟩ := Option.map_eq_some_iff.mp hBody
  obtain ⟨front, back, hText, -⟩ := exists_withBody_eq hClasses (List.mem_of_find?_eq_some hFind)
  exact ⟨front, back, hText⟩

/-- A closed body for the first class of a name changes the body of that class only. -/
theorem bodyOf?_withBody {text : Text} {classes : List ClassDecl} {decl : ClassDecl}
    {name : Text} (hClasses : classesOf text = .ok classes)
    (hDecl : classes.find? (fun decl => decl.name == name) = some decl) {other : Text}
    (hOther : IsClosed other) :
    ∃ found, classesOf (withBody text decl other) = .ok found ∧
      found.map ClassDecl.name = classes.map ClassDecl.name ∧
      bodyOf? (withBody text decl other) found name = some other ∧
      ∀ second, second ≠ name →
        bodyOf? (withBody text decl other) found second = bodyOf? text classes second := by
  obtain ⟨hName, first, last, hSplit, hFirst⟩ := List.find?_eq_some_iff_append.mp hDecl
  obtain ⟨found, hFound, hNames, hBodies⟩ := classesOf_withBody hClasses hSplit hOther
  have hPairs : found.map (fun decl' => (decl'.name, decl'.body (withBody text decl other))) =
      first.map (fun decl => (decl.name, decl.body text)) ++
        (decl.name, other) :: last.map (fun decl => (decl.name, decl.body text)) := by
    have hZip : found.map (fun decl' => (decl'.name, decl'.body (withBody text decl other))) =
        (found.map ClassDecl.name).zip (found.map (ClassDecl.body · (withBody text decl other))) :=
      List.zip_map'.symm
    rw [hZip, hNames, hBodies, hSplit]
    simp [List.zip_append, List.zip_map']
  have hSame : (decl.name == name) = true := hName
  have hOthers : ∀ pair ∈ first.map (fun decl => (decl.name, decl.body text)),
      ((pair.1 == name) = false) := by
    intro pair hPair
    obtain ⟨before, hBefore, rfl⟩ := List.mem_map.mp hPair
    simpa using hFirst before hBefore
  refine ⟨found, hFound, hNames, ?_, ?_⟩
  · rw [bodyOf?_eq, hPairs, List.find?_append]
    have hNone : (first.map fun decl => (decl.name, decl.body text)).find?
        (fun pair => pair.1 == name) = none := by
      rw [List.find?_eq_none]
      intro pair hPair
      rw [hOthers pair hPair]
      decide
    rw [hNone, Option.none_or, List.find?_cons, hSame]
    rfl
  · intro second hNe
    have hOther : (decl.name == second) = false := by
      rw [beq_eq_false_iff_ne, ne_eq, eq_of_beq hSame]
      exact Ne.symm hNe
    rw [bodyOf?_eq, bodyOf?_eq, hPairs, hSplit, List.map_append, List.map_cons,
      List.find?_append, List.find?_append, List.find?_cons_of_neg (by simp [hOther]),
      List.find?_cons_of_neg (by simp [hOther])]

end XdrBindings.Code
