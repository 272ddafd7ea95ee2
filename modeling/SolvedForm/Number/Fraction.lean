import SolvedForm.Number.Division
import SolvedForm.Number.Digits

/-!
# Rationals written as fractions

`Fraction.text` writes `-2/3` or `5`; `Fraction.read?` reads such a text back, and any fraction
that is not in lowest terms or has its sign below the bar.
-/

namespace SolvedForm.Fraction

/-- The reduced fraction; an integer is written without a denominator. -/
def text (a : Rat) : String :=
  if a.den = 1 then Digits.text a.num else Digits.text a.num ++ "/" ++ Digits.natText a.den

/-- Numerator and denominator as written: two integers around the first `/`, or one integer. -/
def readParts? (s : String) : Option (Int × Int) :=
  let numerator := s.toList.takeWhile (· ≠ '/')
  match s.toList.dropWhile (· ≠ '/') with
  | [] => (Digits.readChars? numerator).map fun n => (n, 1)
  | _ :: denominator =>
    (Digits.readChars? numerator).bind fun n => (Digits.readChars? denominator).map fun d => (n, d)

/-- The rational that `s` writes. A text of another form is `none`; a written denominator of
zero is a misuse. -/
def read? (s : String) : Option (Except Misuse Rat) :=
  (readParts? s).map fun (n, d) => Division.fraction n d

example : (readParts? "+007/-014").map (fun (n, d) => text (Rat.divInt n d)) = some "-1/2" := by
  decide +kernel

end SolvedForm.Fraction
