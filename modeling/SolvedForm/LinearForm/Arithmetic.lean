import SolvedForm.LinearForm.Basic
import SolvedForm.Number.Magnitude

/-!
# Arithmetic of linear forms

Sums and differences merge two ascending lists of terms and drop the terms that cancel. A result is
valid if all forms that it was made from are.
-/

namespace SolvedForm

namespace LinearForm

/-- Merges two ascending lists of terms, the second with `sign` applied to its coefficients. -/
def mergeTerms (sign : Rat → Rat) : List (Var × Rat) → List (Var × Rat) → List (Var × Rat)
  | [], right => right.map fun (w, b) => (w, sign b)
  | left, [] => left
  | (v, a) :: left, (w, b) :: right =>
    if v < w then (v, a) :: mergeTerms sign left ((w, b) :: right)
    else if w < v then (w, sign b) :: mergeTerms sign ((v, a) :: left) right
    else if a + sign b = 0 then mergeTerms sign left right
    else (v, a + sign b) :: mergeTerms sign left right
termination_by left right => left.length + right.length

/-- The sum of `p` and `q`, with `sign` applied to every coefficient of `q`. -/
def combine (sign : Rat → Rat) (p q : LinearForm) : LinearForm where
  constant := p.constant + sign q.constant
  terms := Table.ofRows (mergeTerms sign p.terms.toList q.terms.toList)
  valid := p.valid && q.valid

def add (p q : LinearForm) : LinearForm :=
  combine id p q

def sub (p q : LinearForm) : LinearForm :=
  combine (fun c => -c) p q

def neg (p : LinearForm) : LinearForm :=
  { p with constant := -p.constant, terms := p.terms.map fun c => -c }

instance : Add LinearForm := ⟨add⟩
instance : Sub LinearForm := ⟨sub⟩
instance : Neg LinearForm := ⟨neg⟩

/-- Multiplies every coefficient by `k`; the factor zero leaves no term. -/
def scale (k : Rat) (p : LinearForm) : LinearForm :=
  if k = 0 then { p with constant := 0, terms := {} }
  else { p with constant := p.constant * k, terms := p.terms.map fun c => c * k }

/-- Divides every coefficient by `k`. -/
def divide (p : LinearForm) (k : Rat) : Except ArithmeticError LinearForm :=
  if k = 0 then .error .divisionByZero else .ok (p.scale k⁻¹)

/-- What a division leaves in place of `p`: the quotient, or `p` itself without its flag, and how
the division ended. -/
def divideInPlace (p : LinearForm) (k : Rat) : LinearForm × Except ArithmeticError Unit :=
  match p.divide k with
  | .ok q => (q, .ok ())
  | .error e => (p.invalidate, .error e)

/-- Replaces a constant near zero by zero, and drops every term whose coefficient is. -/
def flush (eps : Rat) (p : LinearForm) : LinearForm :=
  { p with
    constant := Magnitude.flush eps p.constant
    terms := p.terms.filter fun c => !decide (Magnitude.NearZero eps c) }

/-- Puts `q`, which is promised not to mention `v`, in the place of `v`: the term `c·v` becomes
`c·q`. A form that does not mention `v` stays as it is, flag included. -/
def substitute (p : LinearForm) (v : Var) (q : LinearForm) : Except Misuse LinearForm :=
  if q.mentions v then .error (.cyclicSubstitution v)
  else if p.coeff v = 0 then .ok p
  else (p.setTerm v 0).map fun rest => rest + q.scale (p.coeff v)

end LinearForm

end SolvedForm
