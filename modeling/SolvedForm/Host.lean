import SolvedForm.Var

/-!
# The host of a solver

A host is the program that owns the variables. It gives them names and says which of them have gone
out of scope; what it hears from the solver is part of the solver's events. As it hears of values in
the middle of a call, it may report other variables before the call ends.
-/

namespace SolvedForm

structure Host where
  nameOf : Var → String
  /-- The variable has gone out of scope. -/
  isRetired : Var → Bool := fun _ => false

/-- What a solver is told from outside: its host, if it has one yet, and the size below which
coefficients are flushed to zero. -/
structure Setting where
  host : Option Host := none
  threshold : Rat := 1 / 100000

namespace Setting

/-- The host's name of a variable, or the generic one without a host. -/
def nameOf (setting : Setting) (v : Var) : String :=
  match setting.host with
  | some host => host.nameOf v
  | none => v.genericName

/-- Without a host no variable is retired. -/
def isRetired (setting : Setting) (v : Var) : Bool :=
  match setting.host with
  | some host => host.isRetired v
  | none => false

/-- The setting when the host, if there is one, reports `isRetired`. -/
def reporting (setting : Setting) (isRetired : Var → Bool) : Setting :=
  { setting with host := setting.host.map fun host => { host with isRetired } }

/-- The setting at a later point of a call, where the host may have a new `report`. -/
def afterReport (setting : Setting) (report : Option (Var → Bool)) : Setting :=
  match report with
  | some isRetired => setting.reporting isRetired
  | none => setting

/-- The setting of equation number `index` of a batch, where the host may report others each time. -/
def atEquation (setting : Setting) (reports : Option (Nat → Var → Bool)) (index : Nat) : Setting :=
  setting.afterReport (reports.map fun isRetired => isRetired index)

end Setting

end SolvedForm
