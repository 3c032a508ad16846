import XdrBindings.Proofs.Code.Directives
import XdrBindings.Proofs.Code.Outline

/-!
# Lines that begin no import or class

An import or class line begins with `import`, with `class` or with one of the words that may stand
before `class`.  Lines that begin with none of these words can stand in front of a text: its first
such line is then that of the whole.

## Main results

* `headsFrom_ofLines_append` — the import and class lines behind such lines.
* `firstHead?_ofLines_append` — the first one.
-/

namespace XdrBindings.Code

/-- Whether a line begins as import and class lines do. -/
def BeginsHead (line : Text) : Prop :=
  ∃ word ∈ headWords, Text.startsWith (Text.trimStart line) word = true

instance (line : Text) : Decidable (BeginsHead line) :=
  inferInstanceAs (Decidable (∃ word ∈ headWords,
    Text.startsWith (Text.trimStart line) word = true))

/-- What begins an import or class line: spaces and tabs, and a word of at least one character. -/
theorem exists_name_of_headLength? {text : Text} {length : Nat}
    (h : headLength? text = some length) :
    ∃ indent c name rest, text = indent ++ (c :: name ++ rest) ∧ c :: name ∈ headWords ∧
      (∀ d ∈ indent, d = ' ' ∨ d = '\t') ∧ ∀ d ∈ c :: name, isNameChar d = true := by
  obtain ⟨indent, word, hWord, rest, hText, hIndent⟩ := exists_word_of_headLength? h
  have hAll : headWords.all (fun word => word.all isNameChar) = true := by decide
  have hName := List.all_eq_true.mp (List.all_eq_true.mp hAll word hWord)
  have hFirst := head?_of_mem_headWords hWord
  cases word with
  | nil => cases hFirst
  | cons c name => exact ⟨indent, c, name, rest, hText, hWord, hIndent, hName⟩

theorem trimStart_indent_append {indent : Text} (hIndent : ∀ d ∈ indent, d = ' ' ∨ d = '\t')
    {c : Char} (hc : isNameChar c = true) (rest : Text) :
    Text.trimStart (indent ++ c :: rest) = c :: rest := by
  have hBlank : Text.isBlank c = false := by
    cases hBlank : Text.isBlank c with
    | false => rfl
    | true =>
      rw [isNameChar_of_isBlank hBlank] at hc
      cases hc
  have hBlanks : ∀ d ∈ indent, Text.isBlank d = true := by
    intro d hd
    rcases hIndent d hd with rfl | rfl <;> rfl
  rw [Text.trimStart_append hBlanks, Text.trimStart_eq_self hBlank]

/-- What begins an import or class line stands on the line itself. -/
theorem headLength?_eq_none {line : Text} (h : ¬BeginsHead line) (rest : Text) :
    headLength? (line ++ '\n' :: rest) = none := by
  rw [Option.eq_none_iff_forall_ne_some]
  intro length hLength
  obtain ⟨indent, c, name, more, hText, hWord, hIndent, hName⟩ :=
    exists_name_of_headLength? hLength
  have hNewline : '\n' ∉ indent ++ c :: name := by
    intro hMem
    rcases List.mem_append.mp hMem with hFront | hBack
    · rcases hIndent '\n' hFront with hEq | hEq <;> cases hEq
    · cases hName '\n' hBack
  rw [← List.append_assoc] at hText
  obtain ⟨behind, rfl⟩ : indent ++ c :: name <+: line := by
    rcases List.append_eq_append_iff.mp hText with ⟨behind, hFront, hBehind⟩ | ⟨behind, hLine, -⟩
    · cases behind with
      | nil => exact ⟨[], by rw [hFront, List.append_nil, List.append_nil]⟩
      | cons d behind =>
        obtain ⟨rfl, -⟩ := List.cons.inj hBehind
        exact absurd (by simp) (hFront ▸ hNewline)
    · exact ⟨behind, hLine.symm⟩
  refine h ⟨c :: name, hWord, ?_⟩
  rw [List.append_assoc, List.cons_append,
    trimStart_indent_append hIndent (hName c List.mem_cons_self)]
  exact List.isPrefixOf_iff_prefix.mpr (List.prefix_append _ _)

/-! ## Lines in front -/

/-- Within a line no other line begins. -/
theorem headsFrom_line {line : Text} (hLine : '\n' ∉ line) (position : Nat) (rest : Text) :
    headsFrom 0 false position (line ++ '\n' :: rest) =
      headsFrom 0 true (position + line.length + 1) rest := by
  induction line generalizing position with
  | nil => rfl
  | cons c line ih =>
    obtain ⟨hc, hMore⟩ : c ≠ '\n' ∧ '\n' ∉ line := by simpa [eq_comm] using hLine
    have hNext : (c == '\n') = false := beq_eq_false_iff_ne.mpr hc
    have hLength : position + (c :: line).length = position + 1 + line.length := by
      rw [List.length_cons]
      omega
    rw [List.cons_append, headsFrom, if_neg Bool.false_ne_true, hNext, ih hMore, hLength]

theorem headsFrom_line_append {line : Text} (hLine : '\n' ∉ line) (h : ¬BeginsHead line)
    (position : Nat) (rest : Text) :
    headsFrom 0 true position (line ++ '\n' :: rest) =
      headsFrom 0 true (position + line.length + 1) rest := by
  have hNone := headLength?_eq_none h rest
  cases line with
  | nil =>
    rw [List.nil_append] at hNone ⊢
    rw [headsFrom, if_pos rfl, hNone]
    rfl
  | cons c line =>
    obtain ⟨hc, hMore⟩ : c ≠ '\n' ∧ '\n' ∉ line := by simpa [eq_comm] using hLine
    have hNext : (c == '\n') = false := beq_eq_false_iff_ne.mpr hc
    have hLength : position + (c :: line).length = position + 1 + line.length := by
      rw [List.length_cons]
      omega
    rw [List.cons_append] at hNone ⊢
    rw [headsFrom, if_pos rfl, hNone]
    dsimp only
    rw [hNext, headsFrom_line hMore, hLength]

/-- The import and class lines behind lines that begin none. -/
theorem headsFrom_ofLines_append {lines : List Text} (hLines : ∀ line ∈ lines, '\n' ∉ line)
    (h : ∀ line ∈ lines, ¬BeginsHead line) (position : Nat) (rest : Text) :
    headsFrom 0 true position (Text.ofLines lines ++ rest) =
      headsFrom 0 true (position + (Text.ofLines lines).length) rest := by
  induction lines generalizing position with
  | nil => rfl
  | cons line lines ih =>
    obtain ⟨hLine, hMore⟩ := List.forall_mem_cons.mp hLines
    obtain ⟨hHere, hRest⟩ := List.forall_mem_cons.mp h
    have hText : Text.ofLines (line :: lines) = line ++ '\n' :: Text.ofLines lines := by
      simp [Text.ofLines]
    rw [hText, List.append_assoc, List.cons_append, headsFrom_line_append hLine hHere,
      ih hMore hRest, List.length_append, List.length_cons]
    congr 1
    omega

/-- With more characters in front, import and class lines stand that much further. -/
theorem headsFrom_add (count skip position : Nat) (atLineStart : Bool) (text : Text) :
    headsFrom skip atLineStart (position + count) text =
      (headsFrom skip atLineStart position text).map (· + count) := by
  induction text generalizing skip position atLineStart with
  | nil => cases skip <;> rfl
  | cons c rest ih =>
    have hNext (skip : Nat) (atLineStart : Bool) :
        headsFrom skip atLineStart (position + count + 1) rest =
          (headsFrom skip atLineStart (position + 1) rest).map (· + count) := by
      rw [Nat.add_right_comm]
      exact ih skip (position + 1) atLineStart
    cases skip with
    | succ skip => exact hNext skip _
    | zero =>
      rw [headsFrom, headsFrom]
      split
      · rw [hNext]
        rfl
      · exact hNext 0 _

/-- Behind lines that begin no import or class and can be read apart, the first import or class
line is the one of what stands there. -/
theorem firstHead?_ofLines_append {lines : List Text} (hLines : ∀ line ∈ lines, '\n' ∉ line)
    (h : ∀ line ∈ lines, ¬BeginsHead line) (hApart : IsApart (Text.ofLines lines)) (rest : Text) :
    firstHead? (Text.ofLines lines ++ rest) =
      (firstHead? rest).map (· + (Text.ofLines lines).length) := by
  have hRegions : regions (Text.ofLines lines ++ rest) =
      regions (Text.ofLines lines) ++ regions rest := by
    rw [regions, Reader.regionsFrom_append _ (cut_of_endsLine hApart.line rest),
      hApart.after.regionsFrom_eq]
    rfl
  have hRegion (position : Nat) :
      (regions (Text.ofLines lines ++ rest))[position + (Text.ofLines lines).length]? =
        (regions rest)[position]? := by
    rw [hRegions, List.getElem?_append_right (by rw [length_regions]; omega), length_regions,
      Nat.add_sub_cancel]
  unfold firstHead?
  dsimp only
  rw [headsFrom_ofLines_append hLines h, headsFrom_add, List.find?_map]
  congr 2
  funext position
  exact congrArg (· == some Region.code) (hRegion position)

/-! ## The first line itself -/

/-- Where an import or class line stands, a text from there on begins with it. -/
theorem firstHead?_trimStart {text : Text} {position : Nat} (h : firstHead? text = some position) :
    firstHead? (Text.trimStart (text.drop position)) = some 0 := by
  obtain ⟨-, length, hLength⟩ := headLength?_of_mem_headsFrom (List.mem_of_find?_eq_some h)
  rw [Nat.sub_zero] at hLength
  obtain ⟨indent, c, name, rest, hText, -, hIndent, hName⟩ := exists_name_of_headLength? hLength
  have hc := hName c List.mem_cons_self
  have hTrim : Text.trimStart (text.drop position) = c :: (name ++ rest) := by
    rw [hText, List.cons_append, trimStart_indent_append hIndent hc]
  have hIs : ∀ d ∈ indent, (d == ' ' || d == '\t') = true := by simpa using hIndent
  have hNot : (c == ' ' || c == '\t') = false := by
    cases hEq : (c == ' ' || c == '\t') with
    | false => rfl
    | true =>
      exfalso
      rcases Bool.or_eq_true_iff.mp hEq with hSpace | hTab
      · rw [eq_of_beq hSpace] at hc
        cases hc
      · rw [eq_of_beq hTab] at hc
        cases hc
  -- the indentation is skipped anyway
  obtain ⟨here, hHere⟩ : ∃ here, headLength? (c :: (name ++ rest)) = some here := by
    have hSame : (indent ++ (c :: (name ++ rest))).dropWhile (fun c => c == ' ' || c == '\t') =
        (c :: (name ++ rest)).dropWhile (fun c => c == ' ' || c == '\t') :=
      List.dropWhile_append_of_pos hIs
    rw [hText, List.cons_append] at hLength
    unfold headLength? at hLength ⊢
    rw [hSame] at hLength
    obtain ⟨behind, hBehind, -⟩ := Option.map_eq_some_iff.mp hLength
    exact ⟨_, Option.map_eq_some_iff.mpr ⟨behind, hBehind, rfl⟩⟩
  have hCode : (regions (c :: (name ++ rest)))[0]? = some .code := by
    have hStep := Reader.step_inCode .nothing (isPlain_of_isNameChar hc) (name ++ rest)
    show some ((Reader.inCode .nothing).step c (name ++ rest)).2 = some .code
    rw [hStep]
  rw [hTrim]
  unfold firstHead?
  dsimp only
  rw [headsFrom, if_pos rfl, hHere]
  exact List.find?_cons_of_pos (by rw [hCode]; rfl)

end XdrBindings.Code
