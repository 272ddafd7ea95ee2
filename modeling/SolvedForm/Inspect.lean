import SolvedForm.Solver.Basic
import SolvedForm.Number.Fraction

/-!
# Values shown with their structure

One-line texts that show every field of a value, for diagnosis rather than for reading.
-/

namespace SolvedForm.Inspect

/-- A value of the kind `name`, whose fields are shown in braces. -/
def record (name : String) (fields : List String) : String :=
  name ++ " \x7b " ++ ", ".intercalate fields ++ " \x7d"

def integer (n : Int) : String :=
  "Integer(" ++ Digits.text n ++ ")"

def rational (a : Rat) : String :=
  "Rational(" ++ Fraction.text a ++ ")"

def bool (b : Bool) : String :=
  if b then "true" else "false"

def form (p : LinearForm) : String :=
  let terms := p.terms.toList.map fun (v, c) => "(" ++ Digits.natText v ++ ", " ++ rational c ++ ")"
  record "LinearPoly"
    ["constant: " ++ rational p.constant, "terms: [" ++ ", ".intercalate terms ++ "]",
      "valid: " ++ bool p.valid]

/-- The rows of a table in braces, each key before its value. -/
def table (value : α → String) (t : Table α) : String :=
  let rows := t.toList.map fun (v, a) => Digits.natText v ++ ": " ++ value a
  "\x7b" ++ ", ".intercalate rows ++ "\x7d"

def threshold (eps : Rat) : String :=
  record "SolverConfig" ["near_zero_threshold: " ++ rational eps]

/-- The store and the threshold of a solver; that there is more is only hinted at. -/
def solver (solver : Solver) : String :=
  record "LinEqSolver"
    ["dependents: " ++ table form solver.store.dependents,
      "solved: " ++ table rational solver.store.solved,
      "config: " ++ threshold solver.threshold, ".."]

end SolvedForm.Inspect
