import SolvedForm.Misuse

/-!
# Dividing out a factor

`splitOff p n` writes `n` as `rest * p ^ count` with as many factors `p` as `n` holds.
-/

namespace SolvedForm.Factor

/-- Divides `n` by `p` for as long as it divides evenly: what is left, and how often it did. -/
def splitOff (p n : Int) : Int × Nat :=
  if _ : 2 ≤ p ∧ n ≠ 0 ∧ n.tmod p = 0 then
    let (rest, count) := splitOff p (n.tdiv p)
    (rest, count + 1)
  else
    (n, 0)
termination_by n.natAbs
decreasing_by
  rw [Int.natAbs_tdiv]
  exact Nat.div_lt_self (by omega) (by omega)

/-- `splitOff` for a factor of at least 2 and a number other than zero; both are checked, the
factor first. -/
def strip (n p : Int) : Except Misuse (Int × Nat) :=
  if p < 2 then .error .factorTooSmall
  else if n = 0 then .error .factorsOfZero
  else .ok (splitOff p n)

end SolvedForm.Factor
