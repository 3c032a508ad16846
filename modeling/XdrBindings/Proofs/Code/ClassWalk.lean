import Mathlib.Data.List.Induction
import XdrBindings.Code.ClassDecl
import XdrBindings.Proofs.Code.Closed
import XdrBindings.Proofs.Text.Occurrences

/-!
# The search for classes, part by part

The search for classes keeps its state in a `Walk`.  Here it is taken apart into single
steps, so that a search over two parts of a text is a search over the first and then one
over the second.  A class that is found cuts its text in three: what is in front of its
opening brace, a closed body, and what is behind its closing brace.

## Main results

* `classesOf_eq` — the classes of a text from the sites that the search finds.
* `Walk.sites_append`, `Walk.after_append` — searching two parts.
* `exists_classSplit` — where a class is found.
* `ClassSplit.sites_eq` — what is found with another closed body in its place.
-/

namespace XdrBindings.Code

/-! ## Single steps -/

/-- A class as the search finds it, by the positions of its keyword and braces. -/
structure Site where
  name : Text
  keyword : Nat
  opening : Nat
  closing : Nat

namespace Site

/-- The declaration at a site. -/
def decl (heads : List LineHead) (site : Site) : ClassDecl :=
  .ofPositions heads site.name site.keyword site.opening site.closing

/-- The text between the braces. -/
def body (site : Site) (text : Text) : Text := text.slice (site.opening + 1) site.closing

/-- The site in a text that has `count` characters more in front. -/
def shift (count : Nat) (site : Site) : Site :=
  ⟨site.name, site.keyword + count, site.opening + count, site.closing + count⟩

@[simp] theorem decl_name (heads : List LineHead) (site : Site) :
    (site.decl heads).name = site.name := rfl

@[simp] theorem decl_body (heads : List LineHead) (site : Site) (text : Text) :
    (site.decl heads).body text = site.body text := rfl

@[simp] theorem shift_name (count : Nat) (site : Site) : (site.shift count).name = site.name :=
  rfl

theorem shift_shift (first second : Nat) (site : Site) :
    (site.shift first).shift second = site.shift (first + second) := by
  simp only [shift, Nat.add_assoc]

end Site

namespace Walk

/-- The walk behind one more character of code. -/
def next (walk : Walk) (spot : Spot) : Walk :=
  match walk with
  | .outside depth pending => stepOutside depth pending spot
  | .inside name keyword opening depth =>
    if spot.char = '}' ∧ depth = 0 then .outside 0 none
    else .inside name keyword opening (nesting depth spot.char)

/-- The class that a character of code ends. -/
def found (walk : Walk) (spot : Spot) : Option Site :=
  match walk with
  | .outside _ _ => none
  | .inside name keyword opening depth =>
    if spot.char = '}' ∧ depth = 0 then some ⟨name, keyword, opening, spot.position⟩ else none

/-- The walk behind characters of code. -/
def after (walk : Walk) (spots : List Spot) : Walk := spots.foldl next walk

/-- The classes that characters of code end. -/
def sites : Walk → List Spot → List Site
  | _, [] => []
  | walk, spot :: rest => (walk.found spot).toList ++ (walk.next spot).sites rest

theorem after_append (walk : Walk) (front back : List Spot) :
    walk.after (front ++ back) = (walk.after front).after back := List.foldl_append

theorem sites_append (walk : Walk) (front back : List Spot) :
    walk.sites (front ++ back) = walk.sites front ++ (walk.after front).sites back := by
  induction front generalizing walk with
  | nil => rfl
  | cons spot rest ih =>
    rw [List.cons_append, sites, sites, ih, List.append_assoc]
    rfl

end Walk

/-- What the search gives from where it stands when nothing is ahead. -/
def Walk.outcome (heads : List LineHead) (sites : List Site) :
    Walk → Except UnclosedClass (List ClassDecl)
  | .outside _ _ => .ok (sites.map (Site.decl heads))
  | .inside name keyword _ _ => .error ⟨name, (LineHead.ofPosition heads keyword).number⟩

theorem classesFrom_eq (heads : List LineHead) (walk : Walk) (spots : List Spot) :
    classesFrom heads walk spots =
      Walk.outcome heads (walk.sites spots) (walk.after spots) := by
  induction spots generalizing walk with
  | nil => cases walk <;> rfl
  | cons spot rest ih =>
    cases walk with
    | outside depth pending => exact ih _
    | inside name keyword opening depth =>
      have hAfter : (Walk.inside name keyword opening depth).after (spot :: rest) =
          ((Walk.inside name keyword opening depth).next spot).after rest := rfl
      rw [classesFrom, Walk.sites, hAfter]
      by_cases hClose : spot.char = '}' ∧ depth = 0
      · rw [if_pos hClose, ih]
        simp only [Walk.next, Walk.found, if_pos hClose]
        cases hLast : (Walk.outside 0 none).after rest <;> rfl
      · rw [if_neg hClose, ih]
        simp only [Walk.next, Walk.found, if_neg hClose]
        rfl

/-- The sites of the classes of a text. -/
def sitesOf (text : Text) : List Site := (Walk.outside 0 none).sites (codeSpots text)

/-- Where the search stands behind a text. -/
def walkBehind (text : Text) : Walk := (Walk.outside 0 none).after (codeSpots text)

theorem classesOf_eq (text : Text) :
    classesOf text = Walk.outcome (LineHead.ofText text) (sitesOf text) (walkBehind text) :=
  classesFrom_eq _ _ _

theorem classesOf_eq_ok_iff {text : Text} {classes : List ClassDecl} :
    classesOf text = .ok classes ↔
      (∃ depth pending, walkBehind text = .outside depth pending) ∧
        classes = (sitesOf text).map (Site.decl (LineHead.ofText text)) := by
  rw [classesOf_eq]
  cases walkBehind text with
  | outside depth pending => simp [Walk.outcome, eq_comm]
  | inside name keyword opening depth => simp [Walk.outcome]

/-! ## Searching from another position -/

/-- The spot in a text that has `count` characters more in front. -/
def Spot.shift (count : Nat) (spot : Spot) : Spot :=
  { spot with position := spot.position + count }

theorem Reader.spotsFrom_add (reader : Reader) (position count : Nat) (text : Text) :
    reader.spotsFrom (position + count) text =
      (reader.spotsFrom position text).map (Spot.shift count) := by
  induction text generalizing reader position with
  | nil => rfl
  | cons c rest ih =>
    simp only [spotsFrom, Nat.add_right_comm position count 1, ih]
    split <;> rfl

/-- The walk in a text that has `count` characters more in front. -/
def Walk.shift (count : Nat) : Walk → Walk
  | .outside depth pending => .outside depth (pending.map fun head => (head.1, head.2 + count))
  | .inside name keyword opening depth => .inside name (keyword + count) (opening + count) depth

theorem Spot.head?_shift (count : Nat) (spot : Spot) :
    (spot.shift count).head? = spot.head?.map fun head => (head.1, head.2 + count) := by
  unfold Spot.head?
  change (if spot.beginsWord classWord then _ else _) = _
  split
  · simp only [Option.map_map]
    rfl
  · rfl

theorem Walk.next_shift (count : Nat) (walk : Walk) (spot : Spot) :
    (walk.shift count).next (spot.shift count) = (walk.next spot).shift count := by
  have hHead := Spot.head?_shift count spot
  cases walk with
  | outside depth pending =>
    cases pending with
    | none =>
      simp only [shift, next, stepOutside, Option.map_none]
      change (if spot.char = '{' then _ else _) = _
      grind [Walk.shift, Spot.shift]
    | some head =>
      simp only [shift, next, stepOutside, Option.map_some]
      change (if spot.char = '{' then _ else _) = _
      grind [Walk.shift, Spot.shift]
  | inside name keyword opening depth =>
    simp only [shift, next]
    change (if spot.char = '}' ∧ depth = 0 then _ else _) = _
    split <;> rfl

theorem Walk.found_shift (count : Nat) (walk : Walk) (spot : Spot) :
    (walk.shift count).found (spot.shift count) = (walk.found spot).map (Site.shift count) := by
  cases walk with
  | outside depth pending => rfl
  | inside name keyword opening depth =>
    simp only [shift, found]
    change (if spot.char = '}' ∧ depth = 0 then _ else _) = _
    split <;> rfl

theorem Walk.sites_shift (count : Nat) (walk : Walk) (spots : List Spot) :
    (walk.shift count).sites (spots.map (Spot.shift count)) =
      (walk.sites spots).map (Site.shift count) := by
  induction spots generalizing walk with
  | nil => rfl
  | cons spot rest ih =>
    rw [List.map_cons, sites, sites, next_shift, found_shift, ih, List.map_append]
    cases walk.found spot <;> rfl

theorem Walk.after_shift (count : Nat) (walk : Walk) (spots : List Spot) :
    (walk.shift count).after (spots.map (Spot.shift count)) =
      (walk.after spots).shift count := by
  induction spots generalizing walk with
  | nil => rfl
  | cons spot rest ih =>
    change ((walk.shift count).next (spot.shift count)).after _ = _
    rw [next_shift, ih]
    rfl

/-- The sites of a text that stands in code at a position of another text. -/
theorem sites_spotsFrom (position : Nat) (text : Text) :
    (Walk.outside 0 none).sites (Reader.start.spotsFrom position text) =
      (sitesOf text).map (Site.shift position) := by
  have hSpots := Reader.start.spotsFrom_add 0 position text
  rw [Nat.zero_add] at hSpots
  rw [hSpots]
  exact Walk.sites_shift position (.outside 0 none) (codeSpots text)

theorem after_spotsFrom (position : Nat) (text : Text) :
    (Walk.outside 0 none).after (Reader.start.spotsFrom position text) =
      (walkBehind text).shift position := by
  have hSpots := Reader.start.spotsFrom_add 0 position text
  rw [Nat.zero_add] at hSpots
  rw [hSpots]
  exact Walk.after_shift position (.outside 0 none) (codeSpots text)

/-! ## Heads look no further than a brace -/

theorem isBrace_iff {c : Char} : isNoBrace c = false ↔ c = '{' ∨ c = '}' := by
  simp only [isNoBrace, Bool.and_eq_false_iff, bne_eq_false_iff_eq]

theorem Spot.drop_before {spot : Spot} (hWord : Text.startsWith spot.ahead classWord = true)
    (back : Text) :
    (spot.before back).ahead.drop classWord.length =
      spot.ahead.drop classWord.length ++ back := by
  have hAhead : (spot.before back).ahead = spot.ahead ++ back := rfl
  rw [hAhead]
  exact List.drop_append_of_le_length (List.isPrefixOf_iff_prefix.mp hWord).length_le

theorem Spot.startsWith_of_beginsWord {spot : Spot} {word : Text}
    (h : spot.beginsWord word = true) : Text.startsWith spot.ahead word = true := by
  simp only [beginsWord, Bool.and_eq_true] at h
  exact h.1.2

section Brace

variable {c : Char} (hc : isNoBrace c = false)

include hc

theorem takeWhile_trimStart_brace {p : Char → Bool} (hStop : p c = false) (front rest : Text) :
    (Text.trimStart (front ++ c :: rest)).takeWhile p =
      (Text.trimStart front).takeWhile p := by
  have hBlank : Text.isBlank c = false := by
    rcases isBrace_iff.mp hc with rfl | rfl <;> rfl
  unfold Text.trimStart
  rw [List.dropWhile_append]
  split
  · rename_i hEmpty
    rw [List.isEmpty_iff.mp hEmpty]
    simp [hBlank, hStop]
  · rw [List.takeWhile_append]
    split
    · rename_i hLength
      rw [List.takeWhile_cons_of_neg (by simp [hStop]), List.append_nil]
      exact ((List.takeWhile_prefix _).eq_of_length hLength).symm
    · rfl

theorem isNameChar_brace : isNameChar c = false := by
  rcases isBrace_iff.mp hc with rfl | rfl <;> rfl

theorem nameAhead_append_brace (front back : Text) :
    nameAhead (front ++ c :: back) = nameAhead front := by
  simp only [nameAhead, takeWhile_trimStart_brace hc (isNameChar_brace hc)]

theorem not_mem_classWord : c ∉ classWord := by
  rcases isBrace_iff.mp hc with rfl | rfl <;> decide

/-- In front of a brace a keyword is seen without what stands behind. -/
theorem Spot.beginsWord_before_brace (spot : Spot) (back : Text) :
    (spot.before (c :: back)).beginsWord classWord = spot.beginsWord classWord := by
  have hAhead : (spot.before (c :: back)).ahead = spot.ahead ++ c :: back := rfl
  have hStarts := Text.startsWith_append_cons (not_mem_classWord hc) spot.ahead back
  unfold beginsWord
  rw [hAhead, hStarts]
  cases hWord : Text.startsWith spot.ahead classWord with
  | false => rw [Bool.and_false, Bool.and_false]; rfl
  | true =>
    have hNext : (spot.ahead.drop classWord.length ++ c :: back).head?.any isNameChar =
        (spot.ahead.drop classWord.length).head?.any isNameChar := by
      cases spot.ahead.drop classWord.length with
      | nil => exact isNameChar_brace hc
      | cons d rest => rfl
    rw [← hAhead, drop_before hWord, hNext]
    rfl

theorem Spot.head?_before_brace (spot : Spot) (back : Text) :
    (spot.before (c :: back)).head? = spot.head? := by
  unfold head?
  rw [beginsWord_before_brace hc]
  cases hHere : spot.beginsWord classWord with
  | false => rfl
  | true =>
    rw [drop_before (startsWith_of_beginsWord hHere), nameAhead_append_brace hc]
    rfl

theorem Walk.next_before_brace (walk : Walk) (spot : Spot) (back : Text) :
    walk.next (spot.before (c :: back)) = walk.next spot := by
  cases walk with
  | outside depth pending =>
    simp only [next, stepOutside, spot.head?_before_brace hc back]
    rfl
  | inside name keyword opening depth => rfl

/-- What is behind a brace does not matter for what the search makes of the text in front of
it. -/
theorem Walk.search_before_brace (walk : Walk) (spots : List Spot) (back : Text) :
    walk.after (spots.map (Spot.before (c :: back))) = walk.after spots ∧
      walk.sites (spots.map (Spot.before (c :: back))) = walk.sites spots := by
  induction spots generalizing walk with
  | nil => exact ⟨rfl, rfl⟩
  | cons spot rest ih =>
    obtain ⟨hAfter, hSites⟩ := ih (walk.next spot)
    have hNext := walk.next_before_brace hc spot back
    constructor
    · change (walk.next (spot.before (c :: back))).after (rest.map _) = (walk.next spot).after rest
      rw [hNext, hAfter]
    · rw [List.map_cons, sites, sites, hNext, hSites]
      cases walk <;> rfl

end Brace

/-! ## Within a class -/

/-- Within a class the search only counts blocks. -/
theorem Walk.inside_of_openBlocks {spots : List Spot} {depth opened : Nat}
    (h : openBlocks depth (spots.map Spot.char) = some opened) (name : Text)
    (keyword opening : Nat) :
    (Walk.inside name keyword opening depth).after spots =
        .inside name keyword opening opened ∧
      (Walk.inside name keyword opening depth).sites spots = [] := by
  induction spots generalizing depth with
  | nil =>
    cases h
    exact ⟨rfl, rfl⟩
  | cons spot rest ih =>
    rw [List.map_cons, openBlocks] at h
    split at h
    · cases h
    · rename_i hClose
      have hNext : (Walk.inside name keyword opening depth).next spot =
          .inside name keyword opening (nesting depth spot.char) := by
        simp only [next, if_neg hClose]
      have hFound : (Walk.inside name keyword opening depth).found spot = none := by
        simp only [found, if_neg hClose]
      obtain ⟨ihAfter, ihSites⟩ := ih h
      constructor
      · change ((Walk.inside name keyword opening depth).next spot).after rest = _
        rw [hNext, ihAfter]
      · rw [sites, hNext, hFound, ihSites]
        rfl

theorem Reader.map_char_spotsFrom (reader : Reader) (position : Nat) (text : Text) :
    (reader.spotsFrom position text).map Spot.char = reader.codeChars text := by
  induction text generalizing reader position with
  | nil => rfl
  | cons c rest ih =>
    simp only [spotsFrom, codeChars]
    split
    · rw [List.map_cons, ih]
    · exact ih _ _

/-- A search that stands within a class came there by an opening brace. -/
theorem Walk.exists_of_after_inside {spots : List Spot} {depth opening keyword inner : Nat}
    {pending : Option (Text × Nat)} {name : Text}
    (h : (Walk.outside depth pending).after spots = .inside name keyword opening inner) :
    ∃ front brace body, spots = front ++ brace :: body ∧
      (Walk.outside depth pending).after front = .outside 0 (some (name, keyword)) ∧
      brace.char = '{' ∧ brace.position = opening ∧
      openBlocks 0 (body.map Spot.char) = some inner := by
  induction spots using List.reverseRecOn generalizing inner with
  | nil => cases h
  | append_singleton spots last ih =>
    rw [after_append] at h
    change ((Walk.outside depth pending).after spots).next last = _ at h
    cases hWalk : (Walk.outside depth pending).after spots with
    | outside opened waiting =>
      rw [hWalk] at h
      simp only [next, stepOutside] at h
      split at h
      · rename_i hBrace
        split at h
        · cases h
          exact ⟨spots, last, [], rfl, hWalk, hBrace, rfl, rfl⟩
        · cases h
      · repeat' split at h
        all_goals cases h
    | inside other otherKeyword otherOpening opened =>
      rw [hWalk] at h
      simp only [next] at h
      split at h
      · cases h
      · rename_i hClose
        cases h
        obtain ⟨front, brace, body, rfl, hFront, hBrace, hPosition, hBody⟩ := ih hWalk
        refine ⟨front, brace, body ++ [last], by simp, hFront, hBrace, hPosition, ?_⟩
        rw [List.map_append, openBlocks_append, hBody]
        simp only [Option.bind_some, List.map_cons, List.map_nil, openBlocks, if_neg hClose]

theorem Walk.exists_of_sites_eq {walk : Walk} {spots : List Spot} {earlier later : List Site}
    {site : Site} (h : walk.sites spots = earlier ++ site :: later) :
    ∃ front brace back, spots = front ++ brace :: back ∧ walk.sites front = earlier ∧
      (walk.after front).found brace = some site ∧
      ((walk.after front).next brace).sites back = later := by
  induction spots generalizing walk earlier with
  | nil => simp [sites] at h
  | cons spot rest ih =>
    rw [sites] at h
    cases hFound : walk.found spot with
    | none =>
      rw [hFound] at h
      obtain ⟨front, brace, back, rfl, hEarlier, hBrace, hLater⟩ := ih h
      refine ⟨spot :: front, brace, back, rfl, ?_, hBrace, hLater⟩
      rw [sites, hFound, hEarlier]
      rfl
    | some first =>
      rw [hFound] at h
      cases earlier with
      | nil =>
        obtain ⟨rfl, hLater⟩ := List.cons.inj h
        exact ⟨[], spot, rest, rfl, rfl, hFound, hLater⟩
      | cons other earlier =>
        obtain ⟨rfl, hRest⟩ := List.cons.inj h
        obtain ⟨front, brace, back, rfl, hEarlier, hBrace, hLater⟩ := ih hRest
        refine ⟨spot :: front, brace, back, rfl, ?_, hBrace, hLater⟩
        rw [sites, hFound, hEarlier]
        rfl

/-! ## Cutting a text at its code -/

/-- What is held is no code. -/
def Reader.HoldsNoCode (reader : Reader) : Prop := reader.held ≠ 0 → reader.heldAs ≠ .code

theorem Reader.holdsNoCode_inCode (behind : Behind) : (Reader.inCode behind).HoldsNoCode :=
  fun h => absurd rfl h

theorem Reader.holdsNoCode_step {reader : Reader} (h : reader.HoldsNoCode) (c : Char)
    (rest : Text) : (reader.step c rest).1.HoldsNoCode := by
  obtain ⟨behind, mode, held, heldAs⟩ := reader
  cases held with
  | succ held => exact fun _ => h (Nat.succ_ne_zero held)
  | zero =>
    intro hHeld hCode
    exact hHeld (read_of_code hCode).2

/-- A plain character that is code, a newline excepted, is read in code and leaves the
reader there. -/
theorem Reader.step_of_code {reader : Reader} {c : Char} {rest : Text}
    (hHolds : reader.HoldsNoCode) (hCode : (reader.step c rest).2 = .code)
    (hLine : c ≠ '\n') :
    reader.Alike (inCode reader.behind) ∧
      (reader.step c rest).1 = inCode (reader.behind.step c) := by
  obtain ⟨behind, mode, held, heldAs⟩ := reader
  cases held with
  | succ held => exact absurd hCode (hHolds (Nat.succ_ne_zero held))
  | zero =>
    change (mode.read behind c rest).2.2 = .code at hCode
    have hQuote (quote : Quote) : quote.region ≠ .code := by cases quote <;> decide
    obtain rfl : mode = .code := by
      cases mode with
      | code => rfl
      | lineComment => simp [Mode.read, hLine] at hCode
      | blockComment depth => simp only [Mode.read] at hCode; grind
      | string quote triple raw => simp only [Mode.read] at hCode; grind
    obtain ⟨hMode, hHeld⟩ := read_of_code hCode
    refine ⟨⟨rfl, rfl, rfl, fun hNe => absurd rfl hNe⟩, ?_⟩
    change Reader.mk _ (Mode.read behind c rest .code).1 (Mode.read behind c rest .code).2.1
      (Mode.read behind c rest .code).2.2 = _
    rw [hMode, hHeld, hCode]
    rfl

/-- A place of code cuts a text in two. -/
theorem Reader.exists_of_spotsFrom_eq {reader : Reader} {position : Nat} {text : Text}
    {earlier later : List Spot} {spot : Spot} (hHolds : reader.HoldsNoCode)
    (h : reader.spotsFrom position text = earlier ++ spot :: later)
    (hPlain : isPlain spot.char = true) (hLine : spot.char ≠ '\n') :
    ∃ front, text = front ++ spot.char :: spot.rest ∧
      spot.position = position + front.length ∧
      earlier = (reader.spotsFrom position front).map (Spot.before (spot.char :: spot.rest)) ∧
      (reader.after front).Alike (inCode spot.behind) ∧
      later = (inCode (spot.behind.step spot.char)).spotsFrom (spot.position + 1) spot.rest := by
  induction text generalizing reader position earlier with
  | nil => simp [spotsFrom] at h
  | cons c rest ih =>
    rw [spotsFrom] at h
    by_cases hCode : (reader.step c rest).2 = .code
    · simp only [hCode, if_true] at h
      cases earlier with
      | nil =>
        obtain ⟨rfl, hLater⟩ := List.cons.inj h
        obtain ⟨hAlike, hNext⟩ := step_of_code hHolds hCode hLine
        refine ⟨[], rfl, rfl, rfl, hAlike, ?_⟩
        rw [← hLater, hNext]
      | cons first earlier =>
        obtain ⟨rfl, hRest⟩ := List.cons.inj h
        obtain ⟨front, rfl, hPosition, hEarlier, hAlike, hLater⟩ :=
          ih (holdsNoCode_step hHolds c _) hRest
        have hStep := reader.step_append (c := c)
          (cut_of_head hPlain : Cut (c :: front) (spot.char :: spot.rest))
        rw [hStep] at hCode hAlike hEarlier
        refine ⟨c :: front, rfl, ?_, ?_, hAlike, hLater⟩
        · rw [hPosition, List.length_cons]
          omega
        · rw [hEarlier, spotsFrom]
          simp only [hCode, if_true, List.map_cons]
          rfl
    · simp only [hCode, if_false] at h
      obtain ⟨front, rfl, hPosition, hEarlier, hAlike, hLater⟩ :=
        ih (holdsNoCode_step hHolds c _) h
      have hStep := reader.step_append (c := c)
        (cut_of_head hPlain : Cut (c :: front) (spot.char :: spot.rest))
      rw [hStep] at hCode hAlike hEarlier
      refine ⟨c :: front, rfl, ?_, ?_, hAlike, hLater⟩
      · rw [hPosition, List.length_cons]
        omega
      · rw [hEarlier, spotsFrom]
        simp only [hCode, if_false]

/-! ## The three parts around a class -/

/-- `ClassSplit text earlier site later front body back` says that the class at `site` cuts
`text` into `front`, its `body` and `back`, the classes at `earlier` being found in front of
it and those at `later` behind it. -/
structure ClassSplit (text : Text) (earlier : List Site) (site : Site) (later : List Site)
    (front body back : Text) : Prop where
  text_eq : text = front ++ '{' :: (body ++ '}' :: back)
  opening_eq : site.opening = front.length
  closing_eq : site.closing = front.length + 1 + body.length
  inCode : (Reader.start.after front).Alike (Reader.inCode (Reader.start.after front).behind)
  waiting : walkBehind front = .outside 0 (some (site.name, site.keyword))
  earlier_eq : sitesOf front = earlier
  closed : IsClosed body
  later_eq : later = (sitesOf back).map (Site.shift (front.length + 1 + body.length + 1))

theorem Walk.of_found_eq_some {walk : Walk} {spot : Spot} {site : Site}
    (h : walk.found spot = some site) :
    walk = .inside site.name site.keyword site.opening 0 ∧ spot.char = '}' ∧
      site.closing = spot.position ∧ walk.next spot = .outside 0 none := by
  cases walk with
  | outside depth pending => cases h
  | inside name keyword opening depth =>
    simp only [found] at h
    split at h
    · rename_i hClose
      cases h
      exact ⟨by rw [hClose.2], hClose.1, rfl, by simp only [next, if_pos hClose]⟩
    · cases h

/-- Every class that is found cuts its text in three. -/
theorem exists_classSplit {text : Text} {earlier later : List Site} {site : Site}
    (h : sitesOf text = earlier ++ site :: later) :
    ∃ front body back, ClassSplit text earlier site later front body back := by
  obtain ⟨spots, brace, behind, hSpots, hEarlier, hFound, hLater⟩ := Walk.exists_of_sites_eq h
  obtain ⟨hInside, hBrace, hClosing, hNext⟩ := Walk.of_found_eq_some hFound
  obtain ⟨opened, first, inner, rfl, hWaiting, hFirst, hOpening, hInner⟩ :=
    Walk.exists_of_after_inside hInside
  rw [List.append_assoc, List.cons_append] at hSpots
  obtain ⟨front, hText, hPosition, hOpened, hAlike, hRest⟩ :=
    Reader.exists_of_spotsFrom_eq (Reader.holdsNoCode_inCode _) hSpots
      (by rw [hFirst]; rfl) (by rw [hFirst]; decide)
  have hStart : Reader.inCode (first.behind.step first.char) = Reader.start := by
    rw [hFirst, Behind.step_of_not_isNameChar _ rfl]
    rfl
  rw [hStart] at hRest
  obtain ⟨body, hBody, hPosition', hInnerSpots, hBodyAlike, hBehind⟩ :=
    Reader.exists_of_spotsFrom_eq (Reader.holdsNoCode_inCode _) hRest.symm
      (by rw [hBrace]; rfl) (by rw [hBrace]; decide)
  have hEnd : Reader.inCode (brace.behind.step brace.char) = Reader.start := by
    rw [hBrace, Behind.step_of_not_isNameChar _ rfl]
    rfl
  rw [hFirst] at hText hOpened
  rw [hBrace] at hBody
  obtain ⟨hFrontAfter, hFrontSites⟩ := Walk.search_before_brace (isBrace_iff.mpr (.inl rfl)) (.outside 0 none)
    (codeSpots front) first.rest
  have hOpened : opened = (codeSpots front).map (Spot.before ('{' :: first.rest)) := hOpened
  rw [← hOpened] at hFrontAfter hFrontSites
  refine ⟨front, body, brace.rest, ?_, ?_, ?_, ?_, ?_, ?_, ⟨?_, ?_⟩, ?_⟩
  · rw [hText, hBody]
  · omega
  · omega
  · exact ⟨rfl, hAlike.mode, hAlike.held, fun hNe => absurd hAlike.held hNe⟩
  · exact hFrontAfter.symm.trans hWaiting
  · have hNone : (Walk.outside 0 (some (site.name, site.keyword))).next first =
        .inside site.name site.keyword first.position 0 := by
      simp only [Walk.next, Walk.stepOutside, if_pos hFirst]
    rw [Walk.sites_append, Walk.sites, hWaiting, hNone] at hEarlier
    rw [sitesOf, ← hFrontSites, ← hEarlier,
      (Walk.inside_of_openBlocks hInner site.name site.keyword first.position).2]
    simp [Walk.found]
  · exact hBodyAlike.mode
  · rw [hInnerSpots, List.map_map] at hInner
    rw [← Reader.map_char_spotsFrom _ (first.position + 1)]
    exact hInner
  · rw [hNext, hBehind, hEnd] at hLater
    rw [← hLater, sites_spotsFrom, hPosition', hPosition, Nat.zero_add]

/-! ## Another body -/

theorem Reader.spotsFrom_brace (behind : Behind) (position : Nat) {c : Char} (rest : Text)
    (hc : isNoBrace c = false) :
    (inCode behind).spotsFrom position (c :: rest) =
      ⟨position, behind, c, rest⟩ :: start.spotsFrom (position + 1) rest := by
  have hBrace : c = '{' ∨ c = '}' := by
    simp only [isNoBrace, Bool.and_eq_false_iff, bne_eq_false_iff_eq] at hc
    exact hc
  have hName : isNameChar c = false := by
    rcases hBrace with rfl | rfl <;> rfl
  have hRead : Mode.code.read behind c rest = (.code, 0, .code) := by
    rcases hBrace with rfl | rfl <;> rfl
  have hStep : (inCode behind).step c rest = (start, .code) := by
    simp only [step, inCode, hRead, Behind.step_of_not_isNameChar behind hName]
    rfl
  simp only [spotsFrom, hStep, if_true]
  rfl

/-- The code of a text around a closed body. -/
theorem codeSpots_around {front body : Text} {behind : Behind}
    (hCode : (Reader.start.after front).Alike (Reader.inCode behind)) (hBody : IsClosed body)
    (back : Text) :
    ∃ other, codeSpots (front ++ '{' :: (body ++ '}' :: back)) =
      (codeSpots front).map (Spot.before ('{' :: (body ++ '}' :: back))) ++
        ⟨front.length, behind, '{', body ++ '}' :: back⟩ ::
          ((Reader.start.spotsFrom (front.length + 1) body).map (Spot.before ('}' :: back)) ++
            ⟨front.length + 1 + body.length, other, '}', back⟩ ::
              Reader.start.spotsFrom (front.length + 1 + body.length + 1) back) := by
  refine ⟨(Reader.start.after body).behind, ?_⟩
  have hOpening : Cut front ('{' :: (body ++ '}' :: back)) := cut_of_head rfl
  have hClosing : Cut body ('}' :: back) := cut_of_head rfl
  rw [codeSpots, codeSpots, Reader.spotsFrom_append _ _ hOpening, hCode.spotsFrom_eq, Nat.zero_add,
    Reader.spotsFrom_brace _ _ _ rfl, Reader.spotsFrom_append _ _ hClosing,
    hBody.after.spotsFrom_eq, Reader.spotsFrom_brace _ _ _ rfl]

namespace ClassSplit

variable {text front body back : Text} {earlier later : List Site} {site : Site}

/-- The class with a body of another length. -/
def resized (site : Site) (front body : Text) : Site :=
  ⟨site.name, site.keyword, front.length, front.length + 1 + body.length⟩

/-- The search behind the class and what it found by then, with any closed body in the
place of its own. -/
theorem search_eq (h : ClassSplit text earlier site later front body back) {other : Text}
    (hOther : IsClosed other) :
    sitesOf (front ++ '{' :: (other ++ '}' :: back)) =
        earlier ++ resized site front other ::
          (sitesOf back).map (Site.shift (front.length + 1 + other.length + 1)) ∧
      walkBehind (front ++ '{' :: (other ++ '}' :: back)) =
        (walkBehind back).shift (front.length + 1 + other.length + 1) := by
  obtain ⟨behind, hSpots⟩ := codeSpots_around h.inCode hOther back
  obtain ⟨hFront, hEarlier⟩ := Walk.search_before_brace (isBrace_iff.mpr (.inl rfl)) (.outside 0 none)
    (codeSpots front) (other ++ '}' :: back)
  replace hFront := hFront.trans h.waiting
  replace hEarlier := hEarlier.trans h.earlier_eq
  -- the opening brace begins the class that waits for it
  have hOpen (behind : Behind) (rest : Text) :
      (Walk.outside 0 (some (site.name, site.keyword))).next
          ⟨front.length, behind, '{', rest⟩ =
        .inside site.name site.keyword front.length 0 := rfl
  have hOpenFound (behind : Behind) (rest : Text) :
      (Walk.outside 0 (some (site.name, site.keyword))).found
          ⟨front.length, behind, '{', rest⟩ = none := rfl
  -- the body closes what it opens
  have hChars : ((Reader.start.spotsFrom (front.length + 1) other).map
      (Spot.before ('}' :: back))).map Spot.char = Reader.start.codeChars other := by
    rw [List.map_map]
    exact Reader.map_char_spotsFrom _ _ _
  have hBalanced := hOther.balanced
  rw [← hChars] at hBalanced
  obtain ⟨hInside, hNothing⟩ :=
    Walk.inside_of_openBlocks hBalanced site.name site.keyword front.length
  -- so the closing brace ends the class
  have hClose (behind : Behind) :
      (Walk.inside site.name site.keyword front.length 0).next
          ⟨front.length + 1 + other.length, behind, '}', back⟩ = .outside 0 none := rfl
  have hCloseFound (behind : Behind) :
      (Walk.inside site.name site.keyword front.length 0).found
          ⟨front.length + 1 + other.length, behind, '}', back⟩ =
        some (resized site front other) := rfl
  constructor
  · rw [sitesOf, hSpots, Walk.sites_append, hEarlier, hFront, Walk.sites, hOpen, hOpenFound,
      Walk.sites_append, hInside, hNothing, Walk.sites, hClose, hCloseFound, sites_spotsFrom]
    rfl
  · rw [walkBehind, hSpots, Walk.after_append, hFront]
    change (((Walk.outside 0 (some (site.name, site.keyword))).next _).after _) = _
    rw [hOpen, Walk.after_append, hInside]
    change (((Walk.inside site.name site.keyword front.length 0).next _).after _) = _
    rw [hClose, after_spotsFrom]

theorem sites_eq (h : ClassSplit text earlier site later front body back) {other : Text}
    (hOther : IsClosed other) :
    sitesOf (front ++ '{' :: (other ++ '}' :: back)) =
      earlier ++ resized site front other ::
        (sitesOf back).map (Site.shift (front.length + 1 + other.length + 1)) :=
  (h.search_eq hOther).1

theorem walkBehind_eq (h : ClassSplit text earlier site later front body back) {other : Text}
    (hOther : IsClosed other) :
    walkBehind (front ++ '{' :: (other ++ '}' :: back)) =
      (walkBehind back).shift (front.length + 1 + other.length + 1) :=
  (h.search_eq hOther).2

end ClassSplit

end XdrBindings.Code
