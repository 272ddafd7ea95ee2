import SolvedForm.Number.Factor
import SolvedForm.Number.Digits

/-!
# Rationals written in decimal notation

A value whose expansion ends is written exactly, with as few digits as that takes. Any other value
is rounded to `roundedPlaces` digits after the point, a half away from zero. Zeros at the end of the
fraction are not written, nor is the sign of a value that rounds to zero.
-/

namespace SolvedForm.Decimal

/-- Digits after the point for a value whose decimal expansion does not end. -/
def roundedPlaces : Nat := 7

/-- How many digits after the point the expansion of a fraction in lowest terms with denominator
`den` has, if it ends. -/
def places? (den : Nat) : Option Nat :=
  let (odd, twos) := Factor.splitOff 2 den
  let (rest, fives) := Factor.splitOff 5 odd
  if rest = 1 then some (max twos fives) else none

/-- The integer nearest to `num / den`; a half goes up. -/
def roundHalfUp (num den : Nat) : Nat :=
  if den ≤ 2 * (num % den) then num / den + 1 else num / den

def dropTrailingZeros (cs : List Char) : List Char :=
  (cs.reverse.dropWhile (· = '0')).reverse

/-- The notation of `units / 10 ^ places`: the whole part, then what is left of the padded fraction
once its trailing zeros are dropped, after a point if anything is left. -/
def layout (units places : Nat) : List Char :=
  let whole := Nat.toDigits 10 (units / Nat.pow 10 places)
  let fraction := (Nat.toDigits 10 (units % Nat.pow 10 places)).leftpad places '0'
  match dropTrailingZeros fraction with
  | [] => whole
  | digits => whole ++ '.' :: digits

/-- The characters of `num / den` rounded to `places` digits after the point. -/
def rounded (num : Int) (den places : Nat) : List Char :=
  let units := roundHalfUp (num.natAbs * Nat.pow 10 places) den
  if num < 0 ∧ units ≠ 0 then '-' :: layout units places else layout units places

/-- Decimal notation of a rational. -/
def text (a : Rat) : String :=
  if a.den = 1 then Digits.text a.num
  else String.ofList (rounded a.num a.den ((places? a.den).getD roundedPlaces))

example : text (mkRat 1 1024) = "0.0009765625" := by decide +kernel
example : text (mkRat (-2) 3) = "-0.6666667" := by decide +kernel
example : text (mkRat (-1) 300000000) = "0" := by decide +kernel

end SolvedForm.Decimal
