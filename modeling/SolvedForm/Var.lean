import SolvedForm.Number.Digits

/-!
# Variables
-/

namespace SolvedForm

/-- A variable is its number. The number 0 never names a variable: it stands for the constant
term of a linear form. -/
abbrev Var := Nat

namespace Var

/-- The number under which a linear form lists its constant term. -/
def constant : Var := 0

/-- The name of a variable that nobody has named: `x.` and its number. -/
def genericName (v : Var) : String :=
  "x." ++ Digits.natText v

end Var

end SolvedForm
