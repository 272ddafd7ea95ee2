import SolvedForm.LinearForm.Basic
import SolvedForm.Number.Decimal

/-!
# Linear forms as text

A form is written like `100 - 2a + b`: the constant first, unless it is zero and a term follows,
then the terms in ascending order of their variables, each coefficient directly before the name.
-/

namespace SolvedForm.LinearForm

/-- What joins a term to the text before it: a leading minus if there is no text yet, and otherwise
its sign between blanks. -/
def joiner (before : String) (c : Rat) : String :=
  if before.isEmpty then (if c < 0 then "-" else "")
  else if c < 0 then " - " else " + "

/-- The size of a coefficient in decimal notation; the size one is not written. -/
def sizeText (c : Rat) : String :=
  if c.abs = 1 then "" else Decimal.text c.abs

def appendTerm (nameOf : Var → String) (before : String) (t : Var × Rat) : String :=
  before ++ joiner before t.2 ++ sizeText t.2 ++ nameOf t.1

/-- The form with its variables called by `nameOf`. -/
def render (nameOf : Var → String) (p : LinearForm) : String :=
  p.terms.toList.foldl (appendTerm nameOf)
    (if p.constant ≠ 0 ∨ p.isConstant then Decimal.text p.constant else "")

/-- The form with generic variable names. -/
def text (p : LinearForm) : String :=
  p.render Var.genericName

example : text (ofTerms 3 [(12, -4), (1, 1)]) = "3 + x.1 - 4x.12" := by decide +kernel
example : text (ofTerms 0 [(2, mkRat (-1) 2)]) = "-0.5x.2" := by decide +kernel

end SolvedForm.LinearForm
