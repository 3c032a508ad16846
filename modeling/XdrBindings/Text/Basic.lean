/-!
# Texts

A text is the list of its characters, and a position in it is a number of
characters. Everything that reads or rewrites source text in this library works
on this type, because recursion on a list is what proofs follow best; a `String`
appears only where a name or a message leaves the library.

UTF-8 enters at one place: positions are reported to the outside as byte offsets,
and `byteOffset` converts them.

## Main statements

* `byteSize_append`: the width of a text is the sum of the widths of its parts.
-/

namespace XdrBindings

/-- A text is the list of its characters. -/
abbrev Text := List Char

namespace Text

/-! ## Width in bytes -/

/-- Number of bytes of the UTF-8 form of a text. -/
def byteSize : Text → Nat
  | [] => 0
  | c :: rest => c.utf8Size + byteSize rest

/-- Byte offset of the character position `position`; a position past the end
counts as the end. -/
def byteOffset (text : Text) (position : Nat) : Nat :=
  byteSize (text.take position)

@[simp] theorem byteSize_nil : byteSize [] = 0 := rfl

@[simp] theorem byteSize_cons (c : Char) (rest : Text) :
    byteSize (c :: rest) = c.utf8Size + byteSize rest := rfl

@[simp] theorem byteSize_append (front back : Text) :
    byteSize (front ++ back) = byteSize front + byteSize back := by
  induction front with
  | nil => simp
  | cons c rest ih => simp [ih, Nat.add_assoc]

/-- The text without its first `count` bytes, where these are whole characters. -/
def dropBytes? : (count : Nat) → Text → Option Text
  | 0, text => some text
  | _ + 1, [] => none
  | count + 1, c :: rest =>
    if c.utf8Size ≤ count + 1 then dropBytes? (count + 1 - c.utf8Size) rest else none

/-- The bytes of a string, each read as the character of the same number. A text
made this way has byte offsets for positions, and its ASCII characters stand
where they stand in the string. -/
def ofBytes (s : String) : Text :=
  s.toUTF8.toList.map fun byte => Char.ofNat byte.toNat

/-! ## Searching -/

/-- Whether `part` stands at the beginning of the text. -/
def startsWith (text part : Text) : Bool := part.isPrefixOf text

/-- Whether `part` stands anywhere in the text. The empty text stands everywhere. -/
def contains (text part : Text) : Bool :=
  match text with
  | [] => part.isEmpty
  | c :: rest => startsWith (c :: rest) part || contains rest part

/-- The text from `start` up to, but not including, `stop`. -/
def slice (text : Text) (start stop : Nat) : Text :=
  (text.drop start).take (stop - start)

/-- The texts written one after the other with `separator` between them. -/
def join (separator : Text) (texts : List Text) : Text :=
  separator.intercalate texts

end Text

end XdrBindings
