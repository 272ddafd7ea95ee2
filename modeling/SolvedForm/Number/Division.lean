import SolvedForm.Misuse

/-!
# Division of integers and rationals

Integer quotients are truncated toward zero. Each operation says how it meets a zero divisor:
`Misuse` where the caller promised that there is none, `ArithmeticError` where it is reported.
-/

namespace SolvedForm.Division

/-- The quotient of two integers, truncated toward zero. -/
def quotient (a b : Int) : Except Misuse Int :=
  if b = 0 then .error .zeroDivisor else .ok (a.tdiv b)

/-- What `quotient` leaves over; it has the sign of the dividend. -/
def remainder (a b : Int) : Except Misuse Int :=
  if b = 0 then .error .zeroDivisor else .ok (a.tmod b)

/-- The rational `n / d` in lowest terms, with the sign on the numerator. -/
def fraction (n d : Int) : Except Misuse Rat :=
  if d = 0 then .error .zeroDenominator else .ok (Rat.divInt n d)

/-- The rational `n / d` of a denominator that may be zero. -/
def ratio (n d : Int) : Except ArithmeticError Rat :=
  if d = 0 then .error .divisionByZero else .ok (Rat.divInt n d)

def reciprocal (a : Rat) : Except Misuse Rat :=
  if a = 0 then .error .reciprocalOfZero else .ok a⁻¹

/-- The quotient of two rationals by a divisor promised not to be zero. -/
def divide (a b : Rat) : Except Misuse Rat :=
  if b = 0 then .error .zeroDivisor else .ok (a / b)

/-- The quotient of two rationals by a divisor that may be zero. -/
def checkedDivide (a b : Rat) : Except ArithmeticError Rat :=
  if b = 0 then .error .divisionByZero else .ok (a / b)

end SolvedForm.Division
