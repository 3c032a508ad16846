import Mathlib.Data.List.Forall2
import XdrBindings.Proofs.Code.Heads

/-!
# The classes of a text

The search for classes finds exactly one class for every head, in the order of the text, unless a
head opens a block that nothing closes.  Then it names that head.

Every head that the search meets is the head of a class that it has found, or of the class that it
is still in (`Walk.current_append_heads`).  What it has found ends at the brace that matches the
opening one; what it is still in has no match.

## Main results

* `LineHead.number_ofPosition` — the line of a keyword.
* `mem_headsOf` — the search meets the heads of the text.
* `matches_of_mem_sitesOf`, `not_matches_of_walkBehind` — which blocks are closed.
* `classesOf_exact` — one class for each head, or the first head whose block is not closed.
-/

namespace XdrBindings.Code

/-! ## The line of a position -/

namespace LineHead

theorem takeWhile_following_eq_nil {first : LineHead} {position : Nat}
    (h : position < first.start) (chunks : List Text) :
    (following first chunks).takeWhile (fun head => head.start ≤ position) = [] := by
  cases chunks with
  | nil => rfl
  | cons chunk rest => exact List.takeWhile_cons_of_neg (by simpa using h)

theorem exists_getLast?_following {rows : List Text} {last : Text} {first : LineHead}
    {position : Nat} (hRows : ∀ row ∈ rows, '\n' ∉ row) (hLast : '\n' ∉ last)
    (hFirst : first.start ≤ position)
    (hPosition : position < first.start + (Text.ofLines rows ++ last).length) :
    ∃ head, ((following first (Text.ofLines rows ++ last).chunks).takeWhile
        fun head => head.start ≤ position).getLast? = some head ∧
      head.number = first.number +
        ((Text.ofLines rows ++ last).take (position - first.start)).count '\n' := by
  induction rows generalizing first with
  | nil =>
    have hSome : last ≠ [] := by
      rintro rfl
      simp [Text.ofLines] at hPosition
      omega
    have hNone : (last.take (position - first.start)).count '\n' = 0 :=
      List.count_eq_zero.mpr fun h => hLast (List.mem_of_mem_take h)
    refine ⟨first, ?_, by rw [show Text.ofLines [] ++ last = last from rfl, hNone, Nat.add_zero]⟩
    rw [show Text.ofLines [] ++ last = last from rfl, Text.chunks_of_not_mem hLast hSome, following,
      following, List.takeWhile_cons_of_pos (by simpa using hFirst)]
    rfl
  | cons row rest ih =>
    have hRow : '\n' ∉ row := hRows row List.mem_cons_self
    have hText : Text.ofLines (row :: rest) ++ last =
        (row ++ ['\n']) ++ (Text.ofLines rest ++ last) := by
      simp [Text.ofLines]
    have hLength : (row ++ ['\n']).length = row.length + 1 := by simp
    -- the head of the next line
    obtain ⟨declaration, hFollowing⟩ : ∃ declaration,
        following first ((row ++ ['\n']) :: (Text.ofLines rest ++ last).chunks) = first ::
          following ⟨first.number + 1, first.start + (row.length + 1), declaration⟩
            (Text.ofLines rest ++ last).chunks :=
      ⟨_, by rw [← hLength]; rfl⟩
    rw [hText, List.length_append, hLength] at hPosition
    rw [hText, Text.chunks_append (Text.endsLine_concat row), Text.chunks_line hRow,
      List.singleton_append, hFollowing, List.takeWhile_cons_of_pos (by simpa using hFirst)]
    by_cases hHere : position < first.start + (row.length + 1)
    · refine ⟨first, ?_, ?_⟩
      · rw [takeWhile_following_eq_nil hHere]
        rfl
      · have hTake :
            ((row ++ ['\n']) ++ (Text.ofLines rest ++ last)).take (position - first.start) =
            row.take (position - first.start) := by
          rw [List.append_assoc, List.take_append_of_le_length (by omega)]
        rw [hTake, List.count_eq_zero.mpr fun h => hRow (List.mem_of_mem_take h), Nat.add_zero]
    · have hStart : first.start + (row.length + 1) ≤ position := by omega
      have hRest : position - first.start =
          (row ++ ['\n']).length + (position - (first.start + (row.length + 1))) := by
        omega
      obtain ⟨head, hHead, hNumber⟩ := @ih
        ⟨first.number + 1, first.start + (row.length + 1), declaration⟩
        (fun other hOther => hRows other (List.mem_cons_of_mem _ hOther)) hStart
        (by dsimp only; omega)
      refine ⟨head, by rw [List.getLast?_cons, hHead]; rfl, ?_⟩
      rw [hNumber, hRest, List.take_length_add_append, List.count_append, List.count_append,
        List.count_eq_zero.mpr hRow, List.count_singleton_self]
      dsimp only
      omega

/-- The line of a position in a text. -/
theorem number_ofPosition {text : Text} {position : Nat} (h : position < text.length) :
    (ofPosition (ofText text) position).number = text.lineOf position := by
  obtain ⟨rows, last, -, hText, hRows⟩ := Text.exists_rows text
  obtain ⟨head, hHead, hNumber⟩ := @exists_getLast?_following rows last ⟨1, 0, 0⟩ position
    (fun row hRow => hRows row (List.mem_append_left _ hRow))
    (hRows last (List.mem_append_right _ List.mem_cons_self)) (Nat.zero_le _)
    (by rw [← hText]; simpa using h)
  rw [← hText] at hHead hNumber
  rw [ofPosition, ofText, hHead, Option.getD_some, hNumber, Text.lineOf, Nat.add_comm]
  rfl

end LineHead

/-! ## The heads that the search meets -/

/-- The head of a class that is found. -/
def Site.head (site : Site) : Head := ⟨site.name, site.keyword, site.opening⟩

namespace Walk

/-- The head of the class that the search is in. -/
def current : Walk → Option Head
  | .outside _ _ => none
  | .inside name keyword opening _ => some ⟨name, keyword, opening⟩

/-- The head that is complete with a character of code. -/
def opened (walk : Walk) (spot : Spot) : Option Head :=
  match walk with
  | .outside 0 (some (name, keyword)) =>
    if spot.char = '{' then some ⟨name, keyword, spot.position⟩ else none
  | _ => none

/-- The heads that are complete with characters of code. -/
def heads : Walk → List Spot → List Head
  | _, [] => []
  | walk, spot :: rest => (walk.opened spot).toList ++ (walk.next spot).heads rest

theorem opened_eq_some_iff {walk : Walk} {spot : Spot} {head : Head} :
    walk.opened spot = some head ↔ walk = .outside 0 (some (head.name, head.keyword)) ∧
      spot.char = '{' ∧ spot.position = head.opening := by
  constructor
  · intro h
    unfold opened at h
    split at h
    · split at h
      · rename_i hOpen
        cases h
        exact ⟨rfl, hOpen, rfl⟩
      · cases h
    · cases h
  · rintro ⟨rfl, hOpen, hPosition⟩
    simp only [opened, if_pos hOpen, hPosition]

/-- A head is met once and given up when its class is found. -/
theorem current_append_opened (walk : Walk) (spot : Spot) :
    walk.current.toList ++ (walk.opened spot).toList =
      ((walk.found spot).map Site.head).toList ++ (walk.next spot).current.toList := by
  match walk with
  | .outside 0 (some (name, keyword)) =>
    by_cases hOpen : spot.char = '{'
    · simp only [current, opened, found, next, stepOutside, if_pos hOpen]
      rfl
    · have hNext : ((Walk.outside 0 (some (name, keyword))).next spot).current = none := by
        simp only [next, stepOutside, if_neg hOpen]
        repeat' split
        all_goals rfl
      simp only [opened, if_neg hOpen, hNext]
      rfl
  | .outside 0 none =>
    have hNext : ((Walk.outside 0 none).next spot).current = none := by
      simp only [next, stepOutside]
      repeat' split
      all_goals rfl
    rw [hNext]
    rfl
  | .outside (depth + 1) pending =>
    have hNext : ((Walk.outside (depth + 1) pending).next spot).current = none := by
      simp only [next, stepOutside]
      repeat' split
      all_goals rfl
    rw [hNext]
    rfl
  | .inside name keyword opening depth =>
    by_cases hClose : spot.char = '}' ∧ depth = 0
    · simp only [current, opened, found, next, if_pos hClose]
      rfl
    · simp only [current, opened, found, next, if_neg hClose]
      rfl

/-- The heads that a search meets are those of the classes that it finds, and of the class that it
is in at the end. -/
theorem current_append_heads (walk : Walk) (spots : List Spot) :
    walk.current.toList ++ walk.heads spots =
      (walk.sites spots).map Site.head ++ (walk.after spots).current.toList := by
  induction spots generalizing walk with
  | nil => simp [heads, sites, after]
  | cons spot rest ih =>
    have hFound : ((walk.found spot).toList).map Site.head =
        ((walk.found spot).map Site.head).toList := by
      cases walk.found spot <;> rfl
    have hAfter : walk.after (spot :: rest) = (walk.next spot).after rest := rfl
    rw [heads, sites, hAfter, List.map_append, List.append_assoc, ← ih, ← List.append_assoc,
      current_append_opened, hFound, List.append_assoc]

theorem mem_heads {walk : Walk} {spots : List Spot} {head : Head} :
    head ∈ walk.heads spots ↔ ∃ front brace back, spots = front ++ brace :: back ∧
      (walk.after front).opened brace = some head := by
  induction spots generalizing walk with
  | nil => simp [heads]
  | cons spot rest ih =>
    rw [heads, List.mem_append, Option.mem_toList, ih]
    constructor
    · rintro (hHere | ⟨front, brace, back, rfl, hOpened⟩)
      · exact ⟨[], spot, rest, rfl, hHere⟩
      · exact ⟨spot :: front, brace, back, rfl, hOpened⟩
    · rintro ⟨front, brace, back, hSpots, hOpened⟩
      cases front with
      | nil =>
        obtain ⟨rfl, -⟩ := List.cons.inj hSpots
        exact .inl hOpened
      | cons first others =>
        obtain ⟨rfl, rfl⟩ := List.cons.inj hSpots
        exact .inr ⟨others, brace, back, rfl, hOpened⟩

/-- The opening braces of heads are places of code, in their order. -/
theorem opening_heads_sublist (walk : Walk) (spots : List Spot) :
    ((walk.heads spots).map Head.opening).Sublist (spots.map Spot.position) := by
  induction spots generalizing walk with
  | nil => exact .slnil
  | cons spot rest ih =>
    rw [heads, List.map_append, List.map_cons]
    cases hOpened : walk.opened spot with
    | none => exact (ih _).cons _
    | some head =>
      have hPosition := (opened_eq_some_iff.mp hOpened).2.2
      rw [hPosition]
      exact (ih _).cons_cons _

/-- Each class ends in front of the next one. -/
theorem sites_pairwise {spots : List Spot} (walk : Walk)
    (h : spots.Pairwise fun spot later => spot.position < later.position) :
    (walk.sites spots).Pairwise fun site later => site.closing < later.opening := by
  induction spots generalizing walk with
  | nil => exact .nil
  | cons spot rest ih =>
    obtain ⟨hSpot, hRest⟩ := List.pairwise_cons.mp h
    rw [sites]
    cases hFound : walk.found spot with
    | none => exact ih _ hRest
    | some site =>
      obtain ⟨-, -, hClosing, hNext⟩ := of_found_eq_some hFound
      refine List.pairwise_cons.mpr ⟨fun later hLater => ?_, ih _ hRest⟩
      -- the search goes on outside, so what it finds opens behind the closing brace
      have hHeads := current_append_heads (.outside 0 none) rest
      have hHead : later.head ∈ (Walk.outside 0 none).heads rest := by
        rw [show (Walk.outside 0 none).heads rest = _ from hHeads]
        rw [hNext] at hLater
        exact List.mem_append_left _ (List.mem_map_of_mem hLater)
      have hOpening := (opening_heads_sublist _ _).subset (List.mem_map_of_mem hHead)
      obtain ⟨other, hOther, hPosition⟩ := List.mem_map.mp hOpening
      rw [hClosing, show later.opening = other.position from hPosition.symm]
      exact hSpot other hOther

end Walk

/-- The heads that the search meets in a text. -/
def headsOf (text : Text) : List Head := (Walk.outside 0 none).heads (codeSpots text)

theorem headsOf_eq (text : Text) :
    headsOf text = (sitesOf text).map Site.head ++ (walkBehind text).current.toList :=
  Walk.current_append_heads (.outside 0 none) (codeSpots text)

theorem mem_headsOf {text : Text} {head : Head} : head ∈ headsOf text ↔ IsHead text head := by
  rw [headsOf, Walk.mem_heads, isHead_iff]
  simp only [Walk.opened_eq_some_iff]

theorem headsOf_pairwise (text : Text) :
    (headsOf text).Pairwise fun head later => head.opening < later.keyword := by
  have hPositions : ((codeSpots text).map Spot.position).Pairwise (· < ·) :=
    List.pairwise_map.mpr (codeSpots_ascending text)
  have hOpenings := List.pairwise_map.mp
    (hPositions.sublist (Walk.opening_heads_sublist (.outside 0 none) (codeSpots text)))
  refine hOpenings.imp_of_mem fun {head later} hHead hLater hLt => ?_
  exact (mem_headsOf.mp hHead).opening_lt_keyword (mem_headsOf.mp hLater) hLt

/-! ## Which blocks are closed -/

theorem matches_of_mem_sitesOf {text : Text} {site : Site} (h : site ∈ sitesOf text) :
    Matches text site.opening site.closing := by
  obtain ⟨earlier, later, hSites⟩ := List.append_of_mem h
  obtain ⟨spots, brace, back, hSpots, -, hFound, -⟩ := Walk.exists_of_sites_eq hSites
  obtain ⟨hInside, hBrace, hClosing, -⟩ := Walk.of_found_eq_some hFound
  obtain ⟨front, first, body, rfl, -, hFirst, hOpening, hBody⟩ :=
    Walk.exists_of_after_inside hInside
  rw [List.append_assoc, List.cons_append] at hSpots
  rw [← hOpening, matches_iff_of_codeSpots_eq hSpots hFirst]
  refine ⟨body.map fun spot => (spot.position, spot.char),
    back.map fun spot => (spot.position, spot.char), ?_, ?_⟩
  · rw [List.map_append, List.map_cons, hBrace, hClosing]
  · rw [List.map_map]
    exact hBody

theorem not_matches_of_walkBehind {text name : Text} {keyword opening depth : Nat}
    (h : walkBehind text = .inside name keyword opening depth) (closing : Nat) :
    ¬Matches text opening closing := by
  obtain ⟨front, first, body, hSpots, -, hFirst, hOpening, hBody⟩ :=
    Walk.exists_of_after_inside h
  rw [← hOpening, matches_iff_of_codeSpots_eq hSpots hFirst]
  rintro ⟨inner, back, hUnits, hInner⟩
  have hChars : body.map Spot.char = inner.map Prod.snd ++ '}' :: back.map Prod.snd := by
    have hSnd := congrArg (List.map Prod.snd) hUnits
    rw [List.map_map, List.map_append, List.map_cons] at hSnd
    exact hSnd
  -- the brace would close the block of the class
  rw [hChars, openBlocks_append, hInner] at hBody
  cases hBody

/-! ## Exactness -/

/-- Whether a declaration is the class of a head: its name and its block, which opens outside of all
blocks and ends at the matching brace. -/
structure Declares (text : Text) (head : Head) (decl : ClassDecl) : Prop where
  name_eq : decl.name = head.name
  opening_eq : decl.opening = head.opening
  outside : depthAt? text decl.opening = some 0
  closing_matches : Matches text decl.opening decl.closing
  opening_lt : decl.opening < decl.closing

theorem declares_of_mem_sitesOf {text : Text} {site : Site} (h : site ∈ sitesOf text) :
    Declares text site.head (site.decl (LineHead.ofText text)) where
  name_eq := rfl
  opening_eq := rfl
  outside := by
    refine IsHead.depthAt?_opening (mem_headsOf.mp (?_ : site.head ∈ headsOf text))
    rw [headsOf_eq]
    exact List.mem_append_left _ (List.mem_map_of_mem h)
  closing_matches := matches_of_mem_sitesOf h
  opening_lt := (matches_of_mem_sitesOf h).lt

/-- The search finds one class for each head, in the order of the text and one behind the other,
or it names the first head whose block is not closed. -/
theorem classesOf_exact (text : Text) :
    ∃ heads : List Head, (∀ head, head ∈ heads ↔ IsHead text head) ∧
      heads.Pairwise (fun head later => head.opening < later.keyword) ∧
      match classesOf text with
      | .ok classes => List.Forall₂ (Declares text) heads classes ∧
          classes.Pairwise fun decl later => decl.closing < later.opening
      | .error fault => ∃ closed head others, heads = closed ++ head :: others ∧
          (∀ earlier ∈ closed, ∃ closing, Matches text earlier.opening closing) ∧
          (∀ closing, ¬Matches text head.opening closing) ∧
          fault = ⟨head.name, text.lineOf head.keyword⟩ := by
  refine ⟨headsOf text, fun head => mem_headsOf, headsOf_pairwise text, ?_⟩
  rw [classesOf_eq]
  cases hWalk : walkBehind text with
  | outside depth pending =>
    have hHeads : headsOf text = (sitesOf text).map Site.head := by
      rw [headsOf_eq, hWalk]
      exact List.append_nil _
    constructor
    · rw [hHeads, List.forall₂_map_left_iff, List.forall₂_map_right_iff, List.forall₂_same]
      exact fun site hSite => declares_of_mem_sitesOf hSite
    · exact List.pairwise_map.mpr (Walk.sites_pairwise _ (codeSpots_ascending text))
  | inside name keyword opening depth =>
    have hHeads : headsOf text = (sitesOf text).map Site.head ++ [⟨name, keyword, opening⟩] := by
      rw [headsOf_eq, hWalk]
      rfl
    refine ⟨_, ⟨name, keyword, opening⟩, [], hHeads, ?_, not_matches_of_walkBehind hWalk, ?_⟩
    · intro earlier hEarlier
      obtain ⟨site, hSite, rfl⟩ := List.mem_map.mp hEarlier
      exact ⟨site.closing, matches_of_mem_sitesOf hSite⟩
    · have hHead : IsHead text ⟨name, keyword, opening⟩ :=
        mem_headsOf.mp (by rw [hHeads]; simp)
      obtain ⟨front, spot, back, hSpots, hPosition⟩ := hHead.waits.named.exists_spot
      have hLt : keyword < text.length := by
        have hSpot : spot ∈ codeSpots text := by simp [hSpots]
        have hSpotLt := Reader.position_lt_of_mem_spotsFrom hSpot
        rw [← show spot.position = keyword from hPosition]
        omega
      rw [LineHead.number_ofPosition hLt]

end XdrBindings.Code
