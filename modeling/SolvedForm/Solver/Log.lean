import SolvedForm.Solver.Basic
import SolvedForm.LinearForm.Text

/-!
# The texts of a solver

The log line of each event, the listing of a store, and the text of each rejection.
-/

namespace SolvedForm

namespace Setting

/-- A form with its variables called by the host's names. -/
def formText (setting : Setting) (p : LinearForm) : String :=
  p.render setting.nameOf

def rowText (setting : Setting) (v : Var) (rhs : String) : String :=
  setting.nameOf v ++ " = " ++ rhs

/-- All dependencies and then all solutions, one to a line. -/
def listing (setting : Setting) (store : Store) : String :=
  let dependents := store.dependents.toList.map fun (v, rhs) =>
    "\t" ++ setting.rowText v (setting.formText rhs) ++ "\n"
  let solved := store.solved.toList.map fun (v, value) =>
    "\t" ++ setting.rowText v (Decimal.text value) ++ "\n"
  "Dependents:\n" ++ String.join dependents ++ "Solved:\n" ++ String.join solved

end Setting

/-- How much an event matters. -/
inductive Level where
  | debug
  | info
  | warn
deriving DecidableEq, Repr

def Level.text : Level → String
  | debug => "DEBUG"
  | info => "INFO"
  | warn => "WARN"

namespace Event

/-- What the log says of an event, if it says anything. -/
def message? (setting : Setting) : Event → Option (Level × String)
  | fromBatch index => some (.debug, "adding equation from batch index=" ++ Digits.natText index)
  | asserted p => some (.info, "# 0 = " ++ setting.formText p)
  | redundant => some (.debug, "redundant equation")
  | offBy residue => some (.warn, "equation off by " ++ Decimal.text residue)
  | dependency v rhs => some (.info, "## " ++ setting.rowText v (setting.formText rhs))
  | changed v rhs => some (.debug, setting.rowText v (setting.formText rhs))
  | solution v value => some (.info, "#### " ++ setting.rowText v (Decimal.text value))
  | notified _ _ => none
  | retired _ => none
  | unsolved v => some (.debug, "capsule " ++ setting.nameOf v ++ " unsolved")
  | independent v => some (.debug, "capsule " ++ setting.nameOf v ++ " no longer dependent")
  | eliminated v expr =>
    some (.debug, "capsule " ++ setting.rowText v (setting.formText expr) ++ " eliminated")
  | listing store => some (.debug, setting.listing store)

/-- The line of an event in the log: its level, a blank and its message. -/
def line? (setting : Setting) (event : Event) : Option String :=
  (event.message? setting).map fun (level, message) => level.text ++ " " ++ message

/-- The notification that an event is, if it is one. -/
def notification? : Event → Option (Var × Rat)
  | notified v value => some (v, value)
  | _ => none

end Event

namespace Outcome

/-- What the host was told in a call, in order. -/
def notifications (outcome : Outcome) : List (Var × Rat) :=
  outcome.events.filterMap Event.notification?

def log (outcome : Outcome) : List String :=
  outcome.events.filterMap (Event.line? outcome.solver.toSetting)

end Outcome

namespace Rejection

def message : Rejection → String
  | inconsistent residue => "inconsistent equation: equation off by " ++ Decimal.text residue
  | divisionByZero => ArithmeticError.divisionByZero.message
  | noHost => "no variable resolver attached"

end Rejection

end SolvedForm
