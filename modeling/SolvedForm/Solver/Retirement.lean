import SolvedForm.Solver.Propagation
import SolvedForm.Number.Division

/-!
# Retiring variables

A retired variable leaves the store without taking relations among the others with it. Its own rule
is dropped. If right-hand sides mention it, the first such dependency `y = c·v + rest` is given up:
it is turned into `v = (y - rest) / c`, which replaces `v` everywhere else.
-/

namespace SolvedForm

/-- The form that equals `v` if `y = rhs` and `rhs` mentions `v`. -/
def LinearForm.solvedFor (rhs : LinearForm) (y v : Var) : Except Misuse LinearForm := do
  let rest ← rhs.setTerm v 0
  let holder ← LinearForm.ofVar y
  return (holder - rest).scale (← Division.reciprocal (rhs.coeff v))

namespace Progress

/-- Drops the value of `v`, if it has one. -/
def dropSolved (progress : Progress) (v : Var) : Progress :=
  if progress.store.solved.contains v then
    let store := { progress.store with solved := progress.store.solved.erase v }
    (progress.withStore store).record (.unsolved v)
  else progress

/-- Drops the right-hand side of `v`, if it has one. -/
def dropDependent (progress : Progress) (v : Var) : Progress :=
  if progress.store.dependents.contains v then
    let store := { progress.store with dependents := progress.store.dependents.erase v }
    (progress.withStore store).record (.independent v)
  else progress

/-- Eliminates `v` from all right-hand sides through the first dependency that mentions it. -/
def eliminate (setting : Setting) (progress : Progress) (v : Var) : Except Misuse Progress :=
  match progress.store.dependents.toList.find? fun row => row.2.mentions v with
  | none => .ok progress
  | some (y, rhs) => do
    let expr ← rhs.solvedFor y v
    let store := { progress.store with dependents := progress.store.dependents.erase y }
    ((progress.withStore store).record (.eliminated v expr)).propagate setting [(v, expr)]

/-- Removes `v` from the store; the constant is no variable and stays. -/
def retire (setting : Setting) (progress : Progress) (v : Var) : Except Misuse Progress :=
  if v = Var.constant then .ok progress
  else (((progress.record (.retired v)).dropSolved v).dropDependent v).eliminate setting v

/-- Retires, in ascending order, every variable of the store that the host reports as retired. -/
def retireReported (setting : Setting) (progress : Progress) : Except Misuse Progress :=
  (progress.store.mentioned.filter setting.isRetired).foldlM (retire setting) progress

/-- Ends a call: retires what the host reports, and lists the store. -/
def finish (setting : Setting) (progress : Progress) : Except Misuse Progress := do
  let progress ← progress.retireReported setting
  return progress.record (.listing progress.store)

end Progress

end SolvedForm
