import SolvedForm.Var

/-!
# Broken promises and failed arithmetic

`Misuse` is the outcome of a call whose precondition does not hold; `ArithmeticError` is the outcome
of an operation that checks its divisor and reports it.
-/

namespace SolvedForm

/-- The precondition that a call violated. -/
inductive Misuse where
  /-- A number below 2 was to be divided out. -/
  | factorTooSmall
  /-- Factors were to be divided out of zero. -/
  | factorsOfZero
  /-- A fraction was given the denominator zero. -/
  | zeroDenominator
  /-- The reciprocal of zero was asked for. -/
  | reciprocalOfZero
  /-- A plain division or remainder had the divisor zero. -/
  | zeroDivisor
  /-- The number of the constant term was used as a variable. -/
  | constantAsVariable
  /-- A variable was to be replaced by a form that mentions it. -/
  | cyclicSubstitution (v : Var)
  /-- An equation that is not constant offered no variable to solve for. -/
  | noPivot
  /-- Known variables kept coming back while they were replaced by what is known of them. -/
  | cyclicStore
deriving DecidableEq, Repr

namespace Misuse

/-- The text shown for a violated precondition; a plain division by zero has none. -/
def message : Misuse → Option String
  | factorTooSmall => some "factor must be at least 2"
  | factorsOfZero => some "cannot strip factors from zero"
  | zeroDenominator => some "denominator cannot be zero"
  | reciprocalOfZero => some "cannot take reciprocal of zero"
  | zeroDivisor => none
  | constantAsVariable => some "x.0 is reserved for the constant term"
  | cyclicSubstitution v => some ("cyclic substitution of " ++ v.genericName)
  | noPivot => some "no pivot in non-constant equation"
  | cyclicStore => none

end Misuse

/-- A failure that checked arithmetic reports to its caller. -/
inductive ArithmeticError where
  | divisionByZero
deriving DecidableEq, Repr

def ArithmeticError.message : ArithmeticError → String
  | divisionByZero => "division by zero"

end SolvedForm
