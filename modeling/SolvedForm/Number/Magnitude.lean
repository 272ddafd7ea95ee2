/-!
# Sign, order and size of rationals
-/

namespace SolvedForm.Magnitude

/-- -1, 0 or 1, as `a` is negative, zero or positive. -/
def sign (a : Rat) : Int :=
  a.num.sign

def compare (a b : Rat) : Ordering :=
  if a < b then .lt else if a = b then .eq else .gt

/-- `l` from the least to the greatest value. -/
def ascending (l : List Rat) : List Rat :=
  l.mergeSort fun a b => decide (a ≤ b)

/-- The size of `a` is strictly below `eps`. No value is near zero for an `eps` of zero or less,
not even zero itself. -/
def NearZero (eps a : Rat) : Prop :=
  a.abs < eps

instance (eps a : Rat) : Decidable (NearZero eps a) :=
  inferInstanceAs (Decidable (a.abs < eps))

/-- Replaces a value near zero by zero. -/
def flush (eps a : Rat) : Rat :=
  if NearZero eps a then 0 else a

end SolvedForm.Magnitude
