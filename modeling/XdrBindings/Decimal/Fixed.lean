/-!
# Quotients with six decimal places

A quotient of two whole numbers is first rounded to a binary fraction with a mantissa
of 53 bits, and that fraction is then written with a fixed number of decimal places.
Both roundings go to the nearest value and, between two nearest ones, to the even one.
The second rounding sees the binary fraction and not the quotient, so the two do not
collapse into one.

## Main statements

* `roundDiv_lower`, `roundDiv_upper`: a rounded quotient is within half a unit of the
  exact one.
* `length_lastDigits`: there are as many decimal places as asked for.
-/

namespace XdrBindings.Decimal

/-- The quotient rounded to the nearest whole number, a half to the even neighbour. -/
def roundDiv (num den : Nat) : Nat :=
  let quotient := num / den
  let rest := num % den
  if 2 * rest < den ∨ (2 * rest = den ∧ quotient % 2 = 0) then quotient else quotient + 1

theorem roundDiv_lower {num den : Nat} (h : 0 < den) :
    2 * num ≤ 2 * (roundDiv num den * den) + den := by
  have hDiv := Nat.div_add_mod num den
  have hMod := Nat.mod_lt num h
  rw [Nat.mul_comm] at hDiv
  unfold roundDiv
  dsimp only
  split
  · omega
  · rw [Nat.add_mul]
    omega

theorem roundDiv_upper {num den : Nat} :
    2 * (roundDiv num den * den) ≤ 2 * num + den := by
  have hDiv := Nat.div_add_mod num den
  rw [Nat.mul_comm] at hDiv
  unfold roundDiv
  dsimp only
  split
  · omega
  · rw [Nat.add_mul]
    omega

/-- A binary fraction: `mantissa / 2 ^ shift`. -/
structure Binary where
  mantissa : Nat
  shift : Nat
  deriving DecidableEq, Repr

/-- Number of bits of a mantissa. -/
def mantissaBits : Nat := 53

/-- The binary fraction with a full mantissa that is nearest to a quotient below
`2 ^ 52`. -/
def Binary.ofQuotient (num den : Nat) : Binary :=
  if num = 0 then ⟨0, 0⟩
  else
    let shift := mantissaBits + den.log2 - num.log2
    let shift := if num * Nat.pow 2 shift < den * Nat.pow 2 mantissaBits then shift else shift - 1
    ⟨roundDiv (num * Nat.pow 2 shift) den, shift⟩

/-- The last `width` decimal digits of a number, with zeros in front where it has fewer. -/
def lastDigits : (width : Nat) → (value : Nat) → List Char
  | 0, _ => []
  | width + 1, value => lastDigits width (value / 10) ++ [Nat.digitChar (value % 10)]

@[simp] theorem length_lastDigits (width value : Nat) :
    (lastDigits width value).length = width := by
  induction width generalizing value with
  | zero => rfl
  | succ width ih => simp [lastDigits, ih]

/-- A binary fraction with `places` decimal places, at least one. -/
def Binary.toFixed (places : Nat) (value : Binary) : String :=
  let unit := Nat.pow 10 places
  let scaled := roundDiv (value.mantissa * unit) (Nat.pow 2 value.shift)
  toString (scaled / unit) ++ "." ++ String.ofList (lastDigits places scaled)

/-- The quotient of two whole numbers with six decimal places. A quotient by zero is
written as zero. -/
def sixPlaces (num den : Nat) : String :=
  (if den = 0 then ⟨0, 0⟩ else Binary.ofQuotient num den : Binary).toFixed 6

end XdrBindings.Decimal
