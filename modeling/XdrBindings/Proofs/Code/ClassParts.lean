import XdrBindings.Proofs.Code.ClassBody

/-!
# A text as its classes

A text is put together from its classes and from what stands between them.  What the search
for classes finds is then read off the parts, and another body for a class is another body
for its part.

## Main results

* `exists_parts` — every text is put together from the classes that are found in it.
* `names_assembled`, `bodies_assembled` — what is found in a text that is put together.
* `withBody_assembled`, `foldr_withBody` — other bodies.
-/

namespace XdrBindings.Code

/-! ## Parts -/

/-- A class with what stands between the class before it and its opening brace. -/
structure ClassPart where
  name : Text
  front : Text
  body : Text

namespace ClassPart

/-- The part with another body. -/
def withBody (part : ClassPart) (body : Text) : ClassPart := { part with body }

@[simp] theorem withBody_name (part : ClassPart) (body : Text) :
    (part.withBody body).name = part.name := rfl

@[simp] theorem withBody_body (part : ClassPart) (body : Text) :
    (part.withBody body).body = body := rfl

/-- The text of a part. -/
def text (part : ClassPart) : Text := part.front ++ '{' :: (part.body ++ ['}'])

theorem text_append (part : ClassPart) (back : Text) :
    part.text ++ back = part.front ++ '{' :: (part.body ++ '}' :: back) := by
  simp [text]

theorem length_text (part : ClassPart) :
    part.text.length = part.front.length + 1 + part.body.length + 1 := by
  simp only [text, List.length_append, List.length_cons, List.length_nil]
  omega

/-- Where a part is found if it stands at the beginning. -/
def site (part : ClassPart) (keyword : Nat) : Site :=
  ⟨part.name, keyword, part.front.length, part.front.length + 1 + part.body.length⟩

/-- In front of the opening brace the class waits for its block, and no class has ended; the
body is closed. -/
structure IsPart (part : ClassPart) (keyword : Nat) : Prop where
  inCode : (Reader.start.after part.front).Alike
    (Reader.inCode (Reader.start.after part.front).behind)
  waiting : walkBehind part.front = .outside 0 (some (part.name, keyword))
  none_earlier : sitesOf part.front = []
  closed : IsClosed part.body

variable {part : ClassPart} {keyword : Nat}

theorem IsPart.withBody (h : part.IsPart keyword) {body : Text} (hBody : IsClosed body) :
    (part.withBody body).IsPart keyword :=
  ⟨h.inCode, h.waiting, h.none_earlier, hBody⟩

theorem IsPart.classSplit (h : part.IsPart keyword) (back : Text) :
    ClassSplit (part.text ++ back) [] (part.site keyword)
      ((sitesOf back).map (Site.shift part.text.length)) part.front part.body back where
  text_eq := part.text_append back
  opening_eq := rfl
  closing_eq := rfl
  inCode := h.inCode
  waiting := h.waiting
  earlier_eq := h.none_earlier
  closed := h.closed
  later_eq := by rw [part.length_text]

theorem IsPart.sitesOf_eq (h : part.IsPart keyword) (back : Text) :
    sitesOf (part.text ++ back) =
      part.site keyword :: (sitesOf back).map (Site.shift part.text.length) := by
  rw [part.text_append, (h.classSplit back).sites_eq h.closed, part.length_text]
  rfl

theorem IsPart.walkBehind_eq (h : part.IsPart keyword) (back : Text) :
    walkBehind (part.text ++ back) = (walkBehind back).shift part.text.length := by
  rw [part.text_append, (h.classSplit back).walkBehind_eq h.closed, part.length_text]

end ClassPart

/-- The text of some parts and what stands behind them. -/
def assembled : List ClassPart → Text → Text
  | [], tail => tail
  | part :: rest, tail => part.text ++ assembled rest tail

/-- All of the parts are classes. -/
def AreParts (parts : List ClassPart) : Prop :=
  ∀ part ∈ parts, ∃ keyword, part.IsPart keyword

theorem AreParts.map {parts : List ClassPart} (h : AreParts parts) {change : ClassPart → Text}
    (hChange : ∀ part ∈ parts, IsClosed (change part)) :
    AreParts (parts.map fun part => part.withBody (change part)) := by
  intro other hOther
  obtain ⟨part, hPart, rfl⟩ := List.mem_map.mp hOther
  obtain ⟨keyword, hIs⟩ := h part hPart
  exact ⟨keyword, hIs.withBody (hChange part hPart)⟩

/-- Every text is put together from classes, with none behind them. -/
theorem exists_parts (text : Text) :
    ∃ parts tail, text = assembled parts tail ∧ AreParts parts ∧ sitesOf tail = [] := by
  induction hLength : (sitesOf text).length generalizing text with
  | zero => exact ⟨[], text, rfl, nofun, List.length_eq_zero_iff.mp hLength⟩
  | succ length ih =>
    obtain ⟨site, later, hSites⟩ := List.exists_cons_of_length_eq_add_one hLength
    have hFirst : sitesOf text = [] ++ site :: later := hSites
    obtain ⟨front, body, back, hSplit⟩ := exists_classSplit hFirst
    have hBack : (sitesOf back).length = length := by
      have hLater := congrArg List.length hSplit.later_eq
      rw [List.length_map] at hLater
      rw [hSites, List.length_cons] at hLength
      omega
    obtain ⟨parts, tail, rfl, hParts, hTail⟩ := ih back hBack
    refine ⟨⟨site.name, front, body⟩ :: parts, tail, ?_, ?_, hTail⟩
    · rw [hSplit.text_eq]
      exact (ClassPart.text_append ⟨site.name, front, body⟩ _).symm
    · intro part hPart
      rcases List.mem_cons.mp hPart with rfl | hPart
      · exact ⟨site.keyword, hSplit.inCode, hSplit.waiting, hSplit.earlier_eq, hSplit.closed⟩
      · exact hParts part hPart

/-! ## What is found -/

section Found

variable {parts : List ClassPart} {tail : Text}

theorem names_assembled (hParts : AreParts parts) (hTail : sitesOf tail = []) :
    (sitesOf (assembled parts tail)).map Site.name = parts.map ClassPart.name := by
  induction parts with
  | nil => rw [assembled, hTail]; rfl
  | cons part rest ih =>
    obtain ⟨⟨keyword, hPart⟩, hRest⟩ := List.forall_mem_cons.mp hParts
    rw [assembled, hPart.sitesOf_eq, List.map_cons, List.map_map, List.map_cons, ← ih hRest]
    rfl

theorem bodies_assembled (hParts : AreParts parts) (hTail : sitesOf tail = []) :
    (sitesOf (assembled parts tail)).map (Site.body · (assembled parts tail)) =
      parts.map ClassPart.body := by
  induction parts with
  | nil => rw [assembled, hTail]; rfl
  | cons part rest ih =>
    obtain ⟨⟨keyword, hPart⟩, hRest⟩ := List.forall_mem_cons.mp hParts
    have hBodies := (hPart.classSplit (assembled rest tail)).bodies_eq hPart.closed
    rw [← part.text_append, ih hRest] at hBodies
    exact hBodies

theorem walkBehind_assembled (hParts : AreParts parts) :
    (∃ depth pending, walkBehind (assembled parts tail) = .outside depth pending) ↔
      ∃ depth pending, walkBehind tail = .outside depth pending := by
  induction parts with
  | nil => rfl
  | cons part rest ih =>
    obtain ⟨⟨keyword, hPart⟩, hRest⟩ := List.forall_mem_cons.mp hParts
    rw [assembled, hPart.walkBehind_eq, ← ih hRest]
    cases walkBehind (assembled rest tail) with
    | outside depth pending => exact iff_of_true ⟨_, _, rfl⟩ ⟨_, _, rfl⟩
    | inside name keyword opening depth => exact iff_of_false nofun nofun

theorem classesOf_assembled (hParts : AreParts parts) (hTail : sitesOf tail = [])
    {classes : List ClassDecl} (hClasses : classesOf (assembled parts tail) = .ok classes) :
    classes.map (fun decl => (decl.name, decl.body (assembled parts tail))) =
      parts.map fun part => (part.name, part.body) := by
  obtain ⟨-, rfl⟩ := classesOf_eq_ok_iff.mp hClasses
  have hNames := names_assembled hParts hTail
  have hBodies := bodies_assembled hParts hTail
  rw [← List.zip_map', ← List.zip_map', List.map_map, List.map_map, ← hNames, ← hBodies]
  rfl

end Found

/-! ## Other bodies -/

/-- Another body for a class behind a front. -/
theorem withBody_shift (front back : Text) (heads others : List LineHead) (site : Site)
    (body : Text) :
    withBody (front ++ back) ((site.shift front.length).decl heads) body =
      front ++ withBody back (site.decl others) body := by
  show (front ++ back).take (site.opening + front.length) ++
      '{' :: (body ++ (front ++ back).drop (site.closing + front.length)) =
    front ++ (back.take site.opening ++ '{' :: (body ++ back.drop site.closing))
  rw [Nat.add_comm site.opening, Nat.add_comm site.closing, List.take_length_add_append,
    List.drop_length_add_append, List.append_assoc]

/-- Another body for the first class. -/
theorem ClassPart.withBody_text (part : ClassPart) (keyword : Nat) (heads : List LineHead)
    (back body : Text) :
    Code.withBody (part.text ++ back) ((part.site keyword).decl heads) body =
      (part.withBody body).text ++ back := by
  have hTake : (part.text ++ back).take part.front.length = part.front := by
    rw [part.text_append, List.take_left]
  have hDrop : (part.text ++ back).drop (part.front.length + 1 + part.body.length) =
      '}' :: back := by
    have hText : part.text ++ back = (part.front ++ '{' :: part.body) ++ '}' :: back := by
      simp [text]
    have hLength : part.front.length + 1 + part.body.length =
        (part.front ++ '{' :: part.body).length := by
      rw [List.length_append, List.length_cons]
      omega
    rw [hText, hLength, List.drop_left]
  show (part.text ++ back).take part.front.length ++ '{' :: (body ++
    (part.text ++ back).drop (part.front.length + 1 + part.body.length)) = _
  rw [hTake, hDrop, ClassPart.text_append]
  rfl

/-- Another body for the class at a place. -/
theorem withBody_assembled {first last : List ClassPart} {part : ClassPart} {tail : Text}
    (hParts : AreParts (first ++ part :: last)) {earlier later : List Site} {site : Site}
    (hSites : sitesOf (assembled (first ++ part :: last) tail) = earlier ++ site :: later)
    (hLength : earlier.length = first.length) (heads : List LineHead) (body : Text) :
    withBody (assembled (first ++ part :: last) tail) (site.decl heads) body =
      assembled (first ++ part.withBody body :: last) tail := by
  induction first generalizing earlier later site with
  | nil =>
    obtain ⟨⟨keyword, hPart⟩, -⟩ := List.forall_mem_cons.mp hParts
    obtain rfl := List.length_eq_zero_iff.mp hLength
    rw [List.nil_append, assembled, hPart.sitesOf_eq] at hSites
    obtain rfl := (List.cons.inj hSites).1
    exact part.withBody_text keyword heads _ body
  | cons before first ih =>
    obtain ⟨⟨keyword, hBefore⟩, hRest⟩ := List.forall_mem_cons.mp hParts
    obtain ⟨other, earlier, rfl⟩ := List.exists_cons_of_length_eq_add_one hLength
    rw [List.cons_append, assembled, hBefore.sitesOf_eq] at hSites
    obtain ⟨here, rest, hSplit, hHere, hOthers⟩ :=
      List.map_eq_append_iff.mp (List.cons.inj hSites).2
    obtain ⟨behind, _, rfl, rfl, -⟩ := List.map_eq_cons_iff.mp hOthers
    have hHereLength : here.length = first.length := by
      rw [← hHere, List.length_cons, List.length_map] at hLength
      exact Nat.succ.inj hLength
    rw [List.cons_append, assembled, withBody_shift _ _ heads heads,
      ih hRest hSplit hHereLength, List.cons_append, assembled]

/-- Other bodies for all classes, the last one first. -/
theorem foldr_withBody {parts : List ClassPart} {tail : Text} (hParts : AreParts parts)
    (hTail : sitesOf tail = []) {classes : List ClassDecl}
    (hClasses : classesOf (assembled parts tail) = .ok classes) (change : Text → Text → Text) :
    classes.foldr (fun decl text => withBody text decl
        (change decl.name (decl.body (assembled parts tail)))) (assembled parts tail) =
      assembled (parts.map fun part => part.withBody (change part.name part.body)) tail := by
  have key (parts : List ClassPart) (hParts : AreParts parts) (heads : List LineHead) :
      (sitesOf (assembled parts tail)).foldr (fun site text => withBody text (site.decl heads)
          (change site.name (site.body (assembled parts tail)))) (assembled parts tail) =
        assembled (parts.map fun part => part.withBody (change part.name part.body)) tail := by
    induction parts with
    | nil => rw [assembled, hTail]; rfl
    | cons part rest ih =>
      obtain ⟨⟨keyword, hPart⟩, hRest⟩ := List.forall_mem_cons.mp hParts
      -- the classes behind the first one are changed in the text behind it
      have hBehind (sites : List Site) :
          (sites.map (Site.shift part.text.length)).foldr
              (fun site text => withBody text (site.decl heads)
                (change site.name (site.body (part.text ++ assembled rest tail))))
              (part.text ++ assembled rest tail) =
            part.text ++ sites.foldr (fun site text => withBody text (site.decl heads)
              (change site.name (site.body (assembled rest tail)))) (assembled rest tail) := by
        induction sites with
        | nil => rfl
        | cons site sites ih =>
          rw [List.map_cons, List.foldr_cons, ih, Site.body_shift, withBody_shift _ _ heads heads]
          rfl
      have hBody : (part.site keyword).body (part.text ++ assembled rest tail) = part.body := by
        rw [part.text_append]
        exact (ClassSplit.body_resized (part.site keyword) _ _ _)
      rw [assembled, hPart.sitesOf_eq, List.foldr_cons, hBehind, ih hRest, hBody,
        part.withBody_text keyword heads]
      rfl
  obtain ⟨-, rfl⟩ := classesOf_eq_ok_iff.mp hClasses
  rw [List.foldr_map]
  exact key parts hParts _

end XdrBindings.Code
