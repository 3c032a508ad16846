import XdrBindings.Code.Braces
import XdrBindings.Code.Signature

/-!
# Taking methods out of a class body

`withoutMethod` takes every declaration of a method out of a class body: the annotation
lines directly above it, the signature with its parameters, the body in braces or behind
an arrow, and the rest of its last line if that is blank. Only declarations that begin a
line outside of all blocks are taken out.

It goes through the text from left to right and on behind what it recognised, whether
that is taken out or stays.

## Main statements

* `annotationLine?_length_lt`: an annotation line takes at least one character.
* `removeFrom_drop`, `removeFrom_keep`: what belongs to a recognised declaration is
  passed over, either left out or written.
-/

namespace XdrBindings.Code

/-! ## Declarations -/

/-- The blanks that may stand at the beginning of a line. -/
def isIndentation (c : Char) : Bool := c == ' ' || c == '\t'

/-- The text behind arguments in parentheses, where an opening one is ahead. -/
def afterParens? : Text → Option Text
  | '(' :: rest =>
    match rest.dropWhile (· != ')') with
    | _ :: behind => some behind
    | [] => none
  | _ => none

/-- The text behind the annotation line at the beginning of a text. -/
def annotationLine? (text : Text) : Option Text :=
  match text.dropWhile isIndentation with
  | '@' :: line =>
    if line.head?.any Text.isWord then
      let named := line.dropWhile Text.isWord
      let behind := if named.head? = some '(' then afterParens? named else some named
      behind.bind fun behind =>
        match behind.dropWhile isIndentation with
        | '\n' :: rest => some rest
        | _ => none
    else none
  | _ => none

theorem length_dropWhile_le (p : Char → Bool) (text : Text) :
    (text.dropWhile p).length ≤ text.length :=
  (List.dropWhile_suffix p).length_le

theorem afterParens?_length_lt {text rest : Text} (h : afterParens? text = some rest) :
    rest.length < text.length := by
  unfold afterParens? at h
  split at h
  · rename_i inner
    split at h
    · rename_i closed behind hClosed
      cases h
      have hInner := length_dropWhile_le (· != ')') inner
      rw [hClosed] at hInner
      simp only [List.length_cons] at hInner ⊢
      omega
    · cases h
  · cases h

theorem annotationLine?_length_lt {text rest : Text} (h : annotationLine? text = some rest) :
    rest.length < text.length := by
  unfold annotationLine? at h
  split at h
  · rename_i line hLine
    have hText := length_dropWhile_le isIndentation text
    rw [hLine] at hText
    split at h
    · obtain ⟨behind, hBehind, hRest⟩ := Option.bind_eq_some_iff.mp h
      have hNamed := length_dropWhile_le Text.isWord line
      have hShorter : behind.length ≤ (line.dropWhile Text.isWord).length := by
        split at hBehind
        · exact Nat.le_of_lt (afterParens?_length_lt hBehind)
        · cases hBehind
          exact Nat.le_refl _
      split at hRest
      · rename_i last hLast
        cases hRest
        have hIndented := length_dropWhile_le isIndentation behind
        rw [hLast] at hIndented
        simp only [List.length_cons] at hText hIndented
        omega
      · cases hRest
    · cases h
  · cases h

/-- The text behind all annotation lines at its beginning. -/
def afterAnnotations (text : Text) : Text :=
  match _ : annotationLine? text with
  | some rest => afterAnnotations rest
  | none => text
termination_by text.length
decreasing_by exact annotationLine?_length_lt ‹_›

/-- How the body of a method begins. -/
inductive BodyMark
  | brace
  | arrow
  deriving DecidableEq, Repr

/-- The mark of a body at the beginning of a text, and the text behind it. -/
def bodyMark? : Text → Option (BodyMark × Text)
  | '{' :: rest => some (.brace, rest)
  | '=' :: '>' :: rest => some (.arrow, rest)
  | _ => none

/-- The text behind `async` and blanks, where that word is ahead. -/
def afterAsync (text : Text) : Text :=
  if text.startsWith "async".toList then Text.trimStart (text.drop 5) else text

/-- The mark of the body of a method, and the text behind it, where a text begins with
the type of the method. -/
def typedDeclaration? (name text : Text) : Option (BodyMark × Text) :=
  (afterType text).findSome? fun behind => do
    let named ← Text.afterBlanks? behind
    guard (named.startsWith name)
    let closed ← afterParens? (Text.trimStart (named.drop name.length))
    bodyMark? (afterAsync (Text.trimStart closed))

/-- A declaration recognised at the beginning of a line: how many characters it takes
through the mark of its body, and the mark. -/
structure Declaration where
  length : Nat
  mark : BodyMark
  deriving DecidableEq, Repr

/-- The declaration of a method at the beginning of a text, which begins a line. -/
def declaration? (name text : Text) : Option Declaration :=
  let line := (afterAnnotations text).dropWhile isIndentation
  (((afterStatic? line).bind (typedDeclaration? name)).or (typedDeclaration? name line)).map
    fun (mark, rest) => ⟨text.length - rest.length, mark⟩

/-! ## Removal -/

/-- The position behind the last character of a declaration: behind the newline, if
only blanks stand between. -/
def lineEndBehind (body : Text) (last : Nat) : Nat :=
  let behind := body.drop (last + 1)
  let line := behind.takeWhile (· != '\n')
  if line.length < behind.length && Text.isBlankText line then last + 1 + line.length + 1
  else last + 1

/-- How many characters of a class body the declaration at a position takes, if it is
outside of all blocks and its own body ends. -/
def removal? (body : Text) (position : Nat) (declaration : Declaration) : Option Nat :=
  let stop := position + declaration.length
  let last :=
    match declaration.mark with
    | .brace => closingBrace? body (stop - 1)
    | .arrow => statementEnd? body stop
  match last with
  | some last =>
    if depthAt? body position = some 0 then some (lineEndBehind body last - position)
    else none
  | none => none

/-- Removes the declarations of a method from the text ahead. The text behind, last
character first, is `done`; of the text ahead, `drop` characters belong to a
declaration that goes, and behind them `keep` to one that stays. -/
def removeFrom (name : Text) : (drop keep : Nat) → (done ahead : Text) → Text
  | _, _, done, [] => done.reverse
  | drop + 1, keep, done, _ :: rest => removeFrom name drop keep done rest
  | 0, keep + 1, done, c :: rest => removeFrom name 0 keep (c :: done) rest
  | 0, 0, done, c :: rest =>
    let found := if done.head?.all (· == '\n') then declaration? name (c :: rest) else none
    match found with
    | none => removeFrom name 0 0 (c :: done) rest
    | some declaration =>
      match removal? (done.reverse ++ c :: rest) done.length declaration with
      | some length => removeFrom name (length - 1) 0 done rest
      | none => removeFrom name 0 (declaration.length - 1) (c :: done) rest

theorem removeFrom_drop (name : Text) (drop keep : Nat) (done ahead : Text) :
    removeFrom name drop keep done ahead = removeFrom name 0 keep done (ahead.drop drop) := by
  induction drop generalizing ahead with
  | zero => rfl
  | succ drop ih =>
    cases ahead with
    | nil => cases keep <;> rfl
    | cons c rest => simpa [removeFrom] using ih rest

theorem removeFrom_keep (name : Text) (keep : Nat) (done ahead : Text) :
    removeFrom name 0 keep done ahead =
      removeFrom name 0 0 ((ahead.take keep).reverse ++ done) (ahead.drop keep) := by
  induction keep generalizing done ahead with
  | zero => rfl
  | succ keep ih =>
    cases ahead with
    | nil => simp [removeFrom]
    | cons c rest => simp [removeFrom, ih]

/-- A class body without the declarations of a method. -/
def withoutMethod (name body : Text) : Text := removeFrom name 0 0 [] body

end XdrBindings.Code
