import SolvedForm.Store.Basic

/-!
# What a solver reports

An `Event` records one thing that happened in a call, in the order of the call. Most events have a
line in the log; `notified` is what the host hears, and `retired` marks the start of a retirement.
-/

namespace SolvedForm

inductive Event where
  /-- Equation number `index` of a batch is next. -/
  | fromBatch (index : Nat)
  /-- The equation `0 = p` was asserted. -/
  | asserted (p : LinearForm)
  /-- The equation holds already. -/
  | redundant
  /-- The equation contradicts what is known: it reduces to `0 = residue`. -/
  | offBy (residue : Rat)
  /-- A variable became dependent. -/
  | dependency (v : Var) (rhs : LinearForm)
  /-- The right-hand side of a dependency changed. -/
  | changed (v : Var) (rhs : LinearForm)
  /-- The value of a variable was found. -/
  | solution (v : Var) (value : Rat)
  /-- The host was told the value of a variable. -/
  | notified (v : Var) (value : Rat)
  /-- A variable is about to be retired. -/
  | retired (v : Var)
  /-- A retired variable lost its value. -/
  | unsolved (v : Var)
  /-- A retired variable lost its right-hand side. -/
  | independent (v : Var)
  /-- A retired variable was replaced by `expr` on all right-hand sides. -/
  | eliminated (v : Var) (expr : LinearForm)
  /-- The contents of the store at the end of a call. -/
  | listing (store : Store)
deriving DecidableEq, Repr

/-- A store on its way through a call, and the events so far, oldest first. -/
structure Progress where
  store : Store
  events : List Event := []

namespace Progress

def record (progress : Progress) (event : Event) : Progress :=
  { progress with events := progress.events ++ [event] }

def withStore (progress : Progress) (store : Store) : Progress :=
  { progress with store := store }

end Progress

/-- Why an equation was not accepted. -/
inductive Rejection where
  /-- The equation contradicts what is known: it reduces to `0 = residue`. -/
  | inconsistent (residue : Rat)
  /-- The equation is invalid, or solving it divides by zero. -/
  | divisionByZero
  /-- There is no host yet. -/
  | noHost
deriving DecidableEq, Repr

namespace Rejection

def ofArithmetic : ArithmeticError → Rejection
  | .divisionByZero => .divisionByZero

end Rejection

end SolvedForm
