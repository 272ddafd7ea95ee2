import SolvedForm.Solver.Propagation
import SolvedForm.Store.Reduction

/-!
# Asserting an equation

The equation `0 = p` is reduced by what the store knows. A constant settles it: zero is redundant,
anything else contradicts. Otherwise it is solved for its pivot, and the new rule is propagated.
-/

namespace SolvedForm

/-- How far an equation got, and whether it was accepted. -/
structure Attempt extends Progress where
  verdict : Except Rejection Unit := .ok ()

/-- The term to solve `p` for: the greatest of those whose variable is neither dependent nor
retired, or the greatest of all if there are no others. -/
def Setting.pivot? (setting : Setting) (store : Store) (p : LinearForm) : Option (Var × Rat) :=
  (p.greatestTerm? fun v => store.dependents.contains v || setting.isRetired v).or
    (p.greatestTerm? fun _ => false)

namespace Progress

def accept (progress : Progress) : Attempt :=
  { progress with }

def reject (progress : Progress) (rejection : Rejection) : Attempt :=
  { progress with verdict := .error rejection }

/-- Makes `v = rhs` a rule of the store and propagates it. -/
def addRule (setting : Setting) (progress : Progress) (v : Var) (rhs : LinearForm) :
    Except Misuse Progress :=
  match rhs.value? with
  | some c => (progress.learn setting (v, c)).propagate setting [(v, LinearForm.ofConstant c)]
  | none => do
    let progress ← (progress.record (.dependency v rhs)).propagate setting [(v, rhs)]
    return progress.withStore (progress.store.setDependent v rhs)

/-- Solves `0 = c·v + rest` for its pivot `v`, that is `v = rest / -c`. -/
def solve (setting : Setting) (progress : Progress) (p : LinearForm) : Except Misuse Attempt :=
  match setting.pivot? progress.store p with
  | none => .error .noPivot
  | some (v, c) =>
    if v = Var.constant ∨ c = 0 then .error .noPivot
    else do
      let rest ← p.setTerm v 0
      match rest.divide (-c) with
      | .error e => return progress.reject (.ofArithmetic e)
      | .ok rhs => return (← progress.addRule setting v (rhs.flush setting.threshold)).accept

/-- Asserts `0 = p`. -/
def assert (setting : Setting) (progress : Progress) (p : LinearForm) : Except Misuse Attempt :=
  if setting.host.isNone then .ok (progress.reject .noHost)
  else if !p.valid then .ok (progress.reject .divisionByZero)
  else do
    let progress := progress.record (.asserted p)
    let reduced ← progress.store.reduce setting.threshold p
    match reduced.value? with
    | some residue =>
      if residue = 0 then return (progress.record .redundant).accept
      else return (progress.record (.offBy residue)).reject (.inconsistent residue)
    | none => progress.solve setting reduced

/-- Asserts equations in order up to the first that is not accepted; `index` counts them, and each
has a setting of its own. -/
def assertAll (settings : Nat → Setting) (progress : Progress) (index : Nat) :
    List LinearForm → Except Misuse Attempt
  | [] => .ok progress.accept
  | p :: ps => do
    let attempt ← (progress.record (.fromBatch index)).assert (settings index) p
    match attempt.verdict with
    | .error _ => return attempt
    | .ok () => attempt.toProgress.assertAll settings (index + 1) ps

end Progress

end SolvedForm
