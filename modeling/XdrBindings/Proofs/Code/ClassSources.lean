import XdrBindings.Proofs.Code.ClassBodies

/-!
# Sources of classes behind a text

A declaration takes the documentation and annotation lines directly above it along.  Behind a
text that ends with another line and can be read apart, the declarations of classes are what
they are without that text.

## Main results

* `LineHead.declaration_ofPosition_append` — where a declaration begins.
* `IsApart.exists_classes_append` — the classes of a text behind another one, with their sources.
-/

namespace XdrBindings.Code

/-- No line of a text belongs to a declaration behind it. -/
def IsDetached (text : Text) : Prop :=
  Text.EndsLine text ∧ ∀ chunk ∈ text.chunks.getLast?, isAttached chunk = false

theorem isDetached_append_line {front line : Text} (hFront : Text.EndsLine front)
    (hLine : '\n' ∉ line) (hAttached : isAttached (line ++ ['\n']) = false) :
    IsDetached (front ++ (line ++ ['\n'])) := by
  refine ⟨?_, ?_⟩
  · rw [← List.append_assoc]
    exact Text.endsLine_concat _
  · rw [Text.chunks_append hFront, Text.chunks_line hLine, List.getLast?_concat]
    rintro _ ⟨⟩
    exact hAttached

namespace LineHead

/-! ## Heads of lines -/

/-- The head of the line behind one. -/
def next (head : LineHead) (chunk : Text) : LineHead :=
  ⟨head.number + 1, head.start + chunk.length,
    if isAttached chunk then head.declaration else head.start + chunk.length⟩

/-- The head of the line with more lines and characters in front. -/
def shift (lines count : Nat) (head : LineHead) : LineHead :=
  ⟨head.number + lines, head.start + count, head.declaration + count⟩

theorem next_shift (lines count : Nat) (head : LineHead) (chunk : Text) :
    (head.shift lines count).next chunk = (head.next chunk).shift lines count := by
  unfold next shift
  dsimp only
  congr 1
  · omega
  · omega
  · split <;> omega

theorem following_append (head : LineHead) (front back : List Text) :
    following head (front ++ back) =
      following head front ++ following (front.foldl next head) back := by
  induction front generalizing head with
  | nil => rfl
  | cons chunk rest ih => exact congrArg (head :: ·) (ih (head.next chunk))

theorem following_shift (lines count : Nat) (head : LineHead) (chunks : List Text) :
    following (head.shift lines count) chunks =
      (following head chunks).map (shift lines count) := by
  induction chunks generalizing head with
  | nil => rfl
  | cons chunk rest ih =>
    change _ :: following ((head.shift lines count).next chunk) rest = _
    rw [next_shift, ih (head.next chunk)]
    rfl

theorem start_foldl_next (head : LineHead) (chunks : List Text) :
    (chunks.foldl next head).start = head.start + chunks.flatten.length := by
  induction chunks generalizing head with
  | nil => rfl
  | cons chunk rest ih =>
    rw [List.foldl_cons, ih, List.flatten_cons, List.length_append]
    exact Nat.add_assoc _ _ _

theorem number_foldl_next (head : LineHead) (chunks : List Text) :
    (chunks.foldl next head).number = head.number + chunks.length := by
  induction chunks generalizing head with
  | nil => rfl
  | cons chunk rest ih =>
    rw [List.foldl_cons, ih, List.length_cons]
    exact Nat.add_right_comm _ _ _

/-- Behind a line that belongs to no declaration, declarations begin with their own line. -/
theorem declaration_foldl_next_of_detached {chunks : List Text}
    (h : ∀ chunk ∈ chunks.getLast?, isAttached chunk = false) :
    (chunks.foldl next ⟨1, 0, 0⟩).declaration = (chunks.foldl next ⟨1, 0, 0⟩).start := by
  rcases List.eq_nil_or_concat chunks with rfl | ⟨rows, last, rfl⟩
  · rfl
  · rw [List.concat_eq_append] at h ⊢
    rw [List.foldl_append]
    exact if_neg (Bool.eq_false_iff.mp (h last (by simp)))

theorem start_le_of_mem_following {first head : LineHead} {chunks : List Text}
    (h : head ∈ following first chunks) : head.start ≤ first.start + chunks.flatten.length := by
  induction chunks generalizing first with
  | nil => cases h
  | cons chunk rest ih =>
    rw [List.flatten_cons, List.length_append]
    rcases List.mem_cons.mp h with rfl | hRest
    · omega
    · have hLe := ih hRest
      dsimp only at hLe
      omega

/-- Behind a text without lines that belong to them, declarations begin where they begin
without it. -/
theorem declaration_ofPosition_append {front back : Text} (h : IsDetached front) {position : Nat}
    (hPosition : position < back.length) :
    (ofPosition (ofText (front ++ back)) (position + front.length)).declaration =
      (ofPosition (ofText back) position).declaration + front.length := by
  obtain ⟨hLine, hLast⟩ := h
  -- the head of the first line behind the front
  have hHead : front.chunks.foldl next ⟨1, 0, 0⟩ =
      (LineHead.mk 1 0 0).shift front.chunks.length front.length := by
    have hStart := start_foldl_next ⟨1, 0, 0⟩ front.chunks
    rw [Text.chunks_flatten, Nat.zero_add] at hStart
    have hNumber := number_foldl_next ⟨1, 0, 0⟩ front.chunks
    have hDeclaration := declaration_foldl_next_of_detached hLast
    rw [hStart] at hDeclaration
    generalize front.chunks.foldl next ⟨1, 0, 0⟩ = head at *
    obtain ⟨number, start, declaration⟩ := head
    simp only at hStart hNumber hDeclaration
    simp only [shift, LineHead.mk.injEq]
    omega
  have hHeads : ofText (front ++ back) = following ⟨1, 0, 0⟩ front.chunks ++
      (ofText back).map (shift front.chunks.length front.length) := by
    unfold ofText
    rw [Text.chunks_append hLine, following_append, hHead, following_shift]
  have hFront : ∀ head ∈ following ⟨1, 0, 0⟩ front.chunks,
      decide (head.start ≤ position + front.length) = true := by
    intro head hMem
    have hLe := start_le_of_mem_following hMem
    rw [Text.chunks_flatten] at hLe
    exact decide_eq_true (by dsimp only at hLe; omega)
  -- the first line of the back begins at its first character
  obtain ⟨head, hHead⟩ : ∃ head,
      ((ofText back).takeWhile fun head => head.start ≤ position).getLast? = some head := by
    have hBack : back.chunks ≠ [] := by
      rw [Ne, Text.chunks_eq_nil_iff]
      rintro rfl
      cases hPosition
    obtain ⟨chunk, rest, hChunks⟩ := List.exists_cons_of_ne_nil hBack
    have hFirst : ofText back = ⟨1, 0, 0⟩ :: following (next ⟨1, 0, 0⟩ chunk) rest := by
      unfold ofText
      rw [hChunks]
      rfl
    rw [hFirst, List.takeWhile_cons_of_pos (by simp), List.getLast?_cons]
    exact ⟨_, rfl⟩
  have hSame : (fun head => decide (head.start ≤ position + front.length)) ∘
      shift front.chunks.length front.length = fun head => decide (head.start ≤ position) := by
    funext head
    simp [shift]
  unfold ofPosition
  rw [hHeads, List.takeWhile_append_of_pos hFront, List.takeWhile_map, hSame, List.getLast?_append,
    List.getLast?_map, hHead]
  rfl

end LineHead

/-! ## Sources -/

/-- The names of the classes of a text with their sources. -/
def sourcesOf (text : Text) : List (Text × Text) :=
  (sitesOf text).map fun site => (site.name, (site.decl (LineHead.ofText text)).source text)

theorem map_fst_sourcesOf (text : Text) : (sourcesOf text).map Prod.fst = namesOf text := by
  rw [← names_sitesOf, sourcesOf, List.map_map]
  rfl

theorem keyword_lt_of_mem_sitesOf {text : Text} {site : Site} (h : site ∈ sitesOf text) :
    site.keyword < text.length := by
  obtain ⟨earlier, later, hSites⟩ := List.append_of_mem h
  obtain ⟨front, body, back, hSplit⟩ := exists_classSplit hSites
  have hKeyword := hSplit.keyword_lt
  have hLength := congrArg List.length hSplit.text_eq
  rw [hSplit.opening_eq] at hKeyword
  rw [List.length_append, List.length_cons] at hLength
  omega

/-- A class behind a text keeps its source. -/
theorem source_shift {front back : Text} (h : IsDetached front) {site : Site}
    (hSite : site ∈ sitesOf back) :
    ((site.shift front.length).decl (LineHead.ofText (front ++ back))).source (front ++ back) =
      (site.decl (LineHead.ofText back)).source back := by
  have hStart : ((site.shift front.length).decl (LineHead.ofText (front ++ back))).start =
      (site.decl (LineHead.ofText back)).start + front.length :=
    LineHead.declaration_ofPosition_append h (keyword_lt_of_mem_sitesOf hSite)
  have hStop : site.closing + front.length + 1 = site.closing + 1 + front.length := by omega
  change Text.slice _ _ (site.closing + front.length + 1) = _
  rw [hStart, hStop]
  exact Text.slice_append_right front back _ _

/-- The classes of a text behind another one, with their sources. -/
theorem IsApart.exists_classes_append {front back : Text} (h : IsApart front)
    (hDetached : IsDetached front) {classes : List ClassDecl}
    (hClasses : classesOf (front ++ back) = .ok classes) :
    ∃ first last, classes = first ++ last ∧ first.map ClassDecl.name = namesOf front ∧
      last.map (fun decl => (decl.name, decl.source (front ++ back))) = sourcesOf back := by
  obtain ⟨-, rfl⟩ := classesOf_eq_ok_iff.mp hClasses
  rw [(h.search_append back).1, List.map_append]
  refine ⟨_, _, rfl, ?_, ?_⟩
  · rw [List.map_map, ← names_sitesOf]
    rfl
  · rw [List.map_map, List.map_map]
    refine List.map_congr_left fun site hSite => ?_
    exact congrArg (Prod.mk site.name) (source_shift hDetached hSite)

end XdrBindings.Code
