import SolvedForm.LinearForm.Arithmetic

/-!
# Stores of equations in solved form

A `Store` holds dependencies `x = p` and solutions `x = c`. `Store.WellFormed` states the solved
form: no variable has two rules, and a dependency mentions only variables without a rule.
-/

namespace SolvedForm

structure Store where
  /-- The right-hand side of every dependent variable. -/
  dependents : Table LinearForm := {}
  /-- The value of every solved variable. -/
  solved : Table Rat := {}
deriving DecidableEq, Repr

/-- What a store says of a variable. -/
inductive Knowledge where
  | solved (value : Rat)
  | dependent (rhs : LinearForm)
  | unknown
deriving DecidableEq, Repr

namespace Store

/-- A variable with a rule: it is solved or dependent. -/
def knows (store : Store) (v : Var) : Bool :=
  store.solved.contains v || store.dependents.contains v

/-- The form that is known to equal `v`: its value if it is solved, else its right-hand side. -/
def rule? (store : Store) (v : Var) : Option LinearForm :=
  match store.solved.get? v with
  | some value => some (LinearForm.ofConstant value)
  | none => store.dependents.get? v

def knowledge (store : Store) (v : Var) : Knowledge :=
  match store.solved.get? v with
  | some value => .solved value
  | none =>
    match store.dependents.get? v with
    | some rhs => .dependent rhs
    | none => .unknown

/-- An assignment that satisfies every rule of the store. -/
def Satisfies (store : Store) (s : Var → Rat) : Prop :=
  (∀ row ∈ store.dependents.toList, s row.1 = row.2.eval s) ∧
    ∀ row ∈ store.solved.toList, s row.1 = row.2

/-- The solved form. -/
structure WellFormed (store : Store) : Prop where
  dependents_sorted : store.dependents.Sorted
  solved_sorted : store.solved.Sorted
  disjoint : ∀ v, ¬(store.dependents.contains v ∧ store.solved.contains v)
  not_knows_constant : store.knows Var.constant = false
  rhs_wellFormed : ∀ row ∈ store.dependents.toList, row.2.WellFormed
  rhs_valid : ∀ row ∈ store.dependents.toList, row.2.valid
  rhs_not_constant : ∀ row ∈ store.dependents.toList, ¬row.2.isConstant
  rhs_free : ∀ row ∈ store.dependents.toList, ∀ v, row.2.mentions v → store.knows v = false

def setDependent (store : Store) (v : Var) (rhs : LinearForm) : Store :=
  { store with dependents := store.dependents.insert v rhs }

def setSolved (store : Store) (v : Var) (value : Rat) : Store :=
  { store with solved := store.solved.insert v value }

/-- Every variable that the store mentions, in ascending order. -/
def mentioned (store : Store) : List Var :=
  let all := store.solved.keys ++ store.dependents.toList.flatMap fun row => row.1 :: row.2.support
  (all.foldl (fun seen v => seen.insert v ()) ({} : Table Unit)).keys

end Store

end SolvedForm
