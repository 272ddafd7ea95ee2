import SolvedForm.Table
import SolvedForm.Misuse

/-!
# Linear forms

A `LinearForm` is a constant and terms `c·v` with rational coefficients. The constant is always
present; a variable has a term only if its coefficient is not zero. `LinearForm.WellFormed` states
the shape that all operations keep. A form is flagged invalid once an operation on it has failed.
-/

namespace SolvedForm

structure LinearForm where
  constant : Rat := 0
  terms : Table Rat := {}
  valid : Bool := true
deriving DecidableEq, Repr

namespace LinearForm

/-- Terms ascend, none belongs to the constant, and none has the coefficient zero. -/
structure WellFormed (p : LinearForm) : Prop where
  sorted : p.terms.Sorted
  key_ne_constant : ∀ t ∈ p.terms.toList, t.1 ≠ Var.constant
  coeff_ne_zero : ∀ t ∈ p.terms.toList, t.2 ≠ 0

def ofConstant (c : Rat) : LinearForm where
  constant := c

/-- The variables that have a term, in ascending order. -/
def support (p : LinearForm) : List Var :=
  p.terms.keys

/-- The constant under its own number, followed by the terms. -/
def toList (p : LinearForm) : List (Var × Rat) :=
  (Var.constant, p.constant) :: p.terms.toList

/-- The number of terms, counting the constant. -/
def size (p : LinearForm) : Nat :=
  p.terms.size + 1

def coeff (p : LinearForm) (v : Var) : Rat :=
  if v = Var.constant then p.constant else (p.terms.get? v).getD 0

def mentions (p : LinearForm) (v : Var) : Bool :=
  p.terms.contains v

def isConstant (p : LinearForm) : Bool :=
  p.terms.isEmpty

/-- The value of a form without variables. -/
def value? (p : LinearForm) : Option Rat :=
  if p.isConstant then some p.constant else none

/-- The variable that the form consists of: one term with coefficient one, and no constant. -/
def soleVariable? (p : LinearForm) : Option Var :=
  match p.terms.toList with
  | [(v, c)] => if c = 1 ∧ p.constant = 0 then some v else none
  | _ => none

/-- The value of the form when each variable has the value that `s` assigns to it. -/
def eval (p : LinearForm) (s : Var → Rat) : Rat :=
  p.terms.toList.foldl (fun sum (v, c) => sum + c * s v) p.constant

/-- Of two terms the one with the greater coefficient in size, the earlier one on a tie. -/
def greaterTerm (best : Option (Var × Rat)) (t : Var × Rat) : Option (Var × Rat) :=
  match best with
  | some b => if b.2.abs < t.2.abs then some t else some b
  | none => some t

/-- Among the terms of variables that are not `excluded`, the one whose coefficient is greatest in
size; of several such terms the one with the least variable. -/
def greatestTerm? (p : LinearForm) (excluded : Var → Bool) : Option (Var × Rat) :=
  (p.terms.toList.filter fun t => !excluded t.1).foldl greaterTerm none

/-! ### Building a form -/

/-- Gives the variable `v` the coefficient `c`; a coefficient of zero removes the term. -/
def withCoeff (p : LinearForm) (v : Var) (c : Rat) : LinearForm :=
  { p with terms := if c = 0 then p.terms.erase v else p.terms.insert v c }

/-- `withCoeff` for a variable promised not to be the constant. -/
def setTerm (p : LinearForm) (v : Var) (c : Rat) : Except Misuse LinearForm :=
  if v = Var.constant then .error .constantAsVariable else .ok (p.withCoeff v c)

def setConstant (p : LinearForm) (c : Rat) : LinearForm :=
  { p with constant := c }

/-- Adds `t.2` to the coefficient of the variable `t.1`, or to the constant. -/
def addTerm (p : LinearForm) (t : Var × Rat) : LinearForm :=
  if t.1 = Var.constant then p.setConstant (p.constant + t.2)
  else p.withCoeff t.1 (p.coeff t.1 + t.2)

/-- The sum of a constant and any list of terms. -/
def ofTerms (c : Rat) (terms : List (Var × Rat)) : LinearForm :=
  terms.foldl addTerm (ofConstant c)

/-- The form `1·v`. -/
def ofVar (v : Var) : Except Misuse LinearForm :=
  (ofConstant 0).setTerm v 1

/-- The form with its flag taken away. -/
def invalidate (p : LinearForm) : LinearForm :=
  { p with valid := false }

end LinearForm

end SolvedForm
