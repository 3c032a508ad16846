import XdrBindings.Text.Basic

/-!
# Blank characters

A character is blank if it has the Unicode property White_Space. Trimming, the
indentation of lines and the gaps inside recognised lines all use this one class;
the lexer of the interface language alone has a narrower one.

## Main statements

* `length_lt_of_afterBlanks?`: what stands behind blanks is shorter.
* `trimStart_eq_self`: trimming stops at the first character that is not blank.
* `trim_eq_nil_of_isBlankText`: an all-blank text trims to nothing.
-/

namespace XdrBindings.Text

/-- The characters with the property White_Space. -/
def isBlank (c : Char) : Bool :=
  let n := c.toNat
  (9 ≤ n && n ≤ 13) || n == 0x20 || n == 0x85 || n == 0xA0 || n == 0x1680 ||
    (0x2000 ≤ n && n ≤ 0x200A) || n == 0x2028 || n == 0x2029 || n == 0x202F ||
    n == 0x205F || n == 0x3000

/-- The text without its leading blanks. -/
def trimStart (text : Text) : Text := text.dropWhile isBlank

/-- The text without its trailing blanks. -/
def trimEnd (text : Text) : Text := (text.reverse.dropWhile isBlank).reverse

/-- The text without blanks at either end. -/
def trim (text : Text) : Text := trimEnd (trimStart text)

/-- The text behind one or more blanks. -/
def afterBlanks? : Text → Option Text
  | c :: rest => if isBlank c then some (trimStart rest) else none
  | [] => none

theorem length_lt_of_afterBlanks? {text rest : Text} (h : afterBlanks? text = some rest) :
    rest.length < text.length := by
  unfold afterBlanks? at h
  split at h
  · split at h
    · cases h
      exact Nat.lt_succ_of_le (List.dropWhile_suffix isBlank).length_le
    · cases h
  · cases h

/-- Whether a text holds nothing but blanks. -/
def isBlankText (text : Text) : Bool := text.all isBlank

theorem trimStart_eq_self {c : Char} {rest : Text} (h : isBlank c = false) :
    trimStart (c :: rest) = c :: rest := by
  simp [trimStart, h]

theorem trim_eq_nil_of_isBlankText {text : Text} (h : isBlankText text = true) :
    trim text = [] := by
  have hStart : trimStart text = [] := by
    induction text with
    | nil => rfl
    | cons c rest ih =>
      simp only [isBlankText, List.all_cons, Bool.and_eq_true] at h
      simpa [trimStart, h.1] using ih h.2
  simp [trim, hStart, trimEnd]

end XdrBindings.Text
