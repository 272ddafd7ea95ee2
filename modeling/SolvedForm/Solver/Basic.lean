import SolvedForm.Solver.Assertion
import SolvedForm.Solver.Retirement

/-!
# The solver

A `Solver` is a store in a setting. Equations are added one at a time or in batches; after each
accepted equation, and after every batch, the variables that the host reports as retired leave the
store. A rejected equation has no effect.
-/

namespace SolvedForm

structure Solver extends Setting where
  store : Store := {}

/-- A solver after a call, what it reported, and whether the equations were accepted. -/
structure Outcome where
  solver : Solver
  events : List Event := []
  verdict : Except Rejection Unit := .ok ()

namespace Solver

/-- A solver that flushes nothing, so that results are exact. -/
def exact : Solver where
  threshold := 0

def attach (solver : Solver) (host : Host) : Solver :=
  { solver with host := some host }

def setThreshold (solver : Solver) (eps : Rat) : Solver :=
  { solver with threshold := eps }

def progress (solver : Solver) : Progress where
  store := solver.store

def outcome (solver : Solver) (progress : Progress) (verdict : Except Rejection Unit := .ok ()) :
    Outcome where
  solver := { solver with store := progress.store }
  events := progress.events
  verdict := verdict

/-- Asserts `0 = p`, then retires what the host reports `later`, after it has heard of the equation.
A rejected equation leaves the solver as it was. -/
def add (solver : Solver) (p : LinearForm) (later : Setting := solver.toSetting) :
    Except Misuse Outcome := do
  let attempt ← solver.progress.assert solver.toSetting p
  match attempt.verdict with
  | .error _ => return solver.outcome attempt.toProgress attempt.verdict
  | .ok () => return solver.outcome (← attempt.toProgress.finish later)

/-- Asserts equations in order, each in its own of the `settings`, up to the first that is not
accepted, then retires, once, what the host reports `later`. -/
def addAll (solver : Solver) (ps : List LinearForm)
    (settings : Nat → Setting := fun _ => solver.toSetting) (later : Setting := solver.toSetting) :
    Except Misuse Outcome := do
  let attempt ← solver.progress.assertAll settings 0 ps
  return solver.outcome (← attempt.toProgress.finish later) attempt.verdict

def retire (solver : Solver) (v : Var) : Except Misuse Outcome := do
  return solver.outcome (← solver.progress.retire solver.toSetting v)

def retireReported (solver : Solver) : Except Misuse Outcome := do
  return solver.outcome (← solver.progress.retireReported solver.toSetting)

/-- What is known about `v`; of a retired variable nothing is. -/
def knowledge (solver : Solver) (v : Var) : Knowledge :=
  if solver.isRetired v then .unknown else solver.store.knowledge v

def isSolved (solver : Solver) (v : Var) : Bool :=
  solver.store.solved.contains v

def isDependent (solver : Solver) (v : Var) : Bool :=
  solver.store.dependents.contains v

end Solver

end SolvedForm
