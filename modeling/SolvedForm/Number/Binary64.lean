/-!
# Rationals as binary64 words

A rational is rounded to the nearest binary64 value, ties to the even significand, with gradual
underflow; magnitudes too large become an infinity. The result is the 64-bit interchange word.
-/

namespace SolvedForm.Binary64

/-- The largest `e` with `2 ^ e ≤ num / den`, for positive `num` and `den`. -/
def floorLog2 (num den : Nat) : Int :=
  let e : Int := (num.log2 : Int) - den.log2
  if num <<< (-e).toNat < den <<< e.toNat then e - 1 else e

/-- The integer nearest to `num / den`; a half goes to the even neighbour. -/
def roundHalfEven (num den : Nat) : Nat :=
  let q := num / den
  let twice := 2 * (num % den)
  if twice > den ∨ (twice = den ∧ q % 2 = 1) then q + 1 else q

/-- The exponent of the last place of a value of binary order `e`: significands have 53 bits, and
no place is below `2 ^ -1074`. -/
def unitExponent (e : Int) : Int :=
  max (e - 52) (-1074)

/-- The word of positive infinity. -/
def infinity : Nat := 0x7ff0000000000000

/-- The word of the positive value nearest to `num / den`. A significand of 53 bits adds its leading
bit to the exponent field, so a carry out of the significand needs no case of its own. -/
def magnitude (num den : Nat) : Nat :=
  let q := unitExponent (floorLog2 num den)
  let significand := roundHalfEven (num <<< (-q).toNat) (den <<< q.toNat)
  min (((q + 1074).toNat <<< 52) + significand) infinity

/-- The binary64 word nearest to `a`; zero is written with a positive sign, a negative value that
underflows with a negative one. -/
def ofRat (a : Rat) : UInt64 :=
  if a.num = 0 then 0
  else
    let word := UInt64.ofNat (magnitude a.num.natAbs a.den)
    if a.num < 0 then word ||| 0x8000000000000000 else word

/-- The word as sixteen lower-case hexadecimal digits. -/
def hex (word : UInt64) : String :=
  String.ofList ((Nat.toDigits 16 word.toNat).leftpad 16 '0')

example : hex (ofRat (mkRat 1 3)) = "3fd5555555555555" := by decide +kernel
example : hex (ofRat (-(2 ^ 1024 : Nat))) = "fff0000000000000" := by decide +kernel

end SolvedForm.Binary64
