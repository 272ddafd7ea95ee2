import SolvedForm.Solver.Event
import SolvedForm.Host

/-!
# Propagating a rule through a store

A new rule `known = value` is substituted into every dependency. A dependency whose right-hand side
collapses to a constant becomes a solution, and its value is propagated in turn: first come, first
served, each round in ascending order of the dependent variables.
-/

namespace SolvedForm

/-- What one round of substitution makes of the dependencies. -/
structure Sweep where
  /-- The dependencies that stay dependencies. -/
  kept : List (Var × LinearForm) := []
  /-- The dependencies whose right-hand side was replaced. -/
  changed : List (Var × LinearForm) := []
  /-- The changed dependencies that became constant, with their values. -/
  collapsed : List (Var × Rat) := []
deriving DecidableEq, Repr

namespace Sweep

/-- Adds a dependency in front of the others, whose right-hand side was replaced by `rhs`. -/
def consChanged (v : Var) (rhs : LinearForm) (sweep : Sweep) : Sweep :=
  match rhs.value? with
  | some c =>
    { sweep with changed := (v, rhs) :: sweep.changed, collapsed := (v, c) :: sweep.collapsed }
  | none => { sweep with changed := (v, rhs) :: sweep.changed, kept := (v, rhs) :: sweep.kept }

/-- Adds a dependency in front of the others that stays as it is. -/
def consKept (v : Var) (rhs : LinearForm) (sweep : Sweep) : Sweep :=
  { sweep with kept := (v, rhs) :: sweep.kept }

/-- Substitutes `known = value` into every row that mentions `known`, and flushes what changed. -/
def run (eps : Rat) (known : Var) (value : LinearForm) :
    List (Var × LinearForm) → Except Misuse Sweep
  | [] => .ok {}
  | (v, rhs) :: rows =>
    if rhs.mentions known then do
      let replaced ← rhs.substitute known value
      return (← run eps known value rows).consChanged v (replaced.flush eps)
    else do
      return (← run eps known value rows).consKept v rhs

theorem length_run {eps : Rat} {known : Var} {value : LinearForm} {rows : List (Var × LinearForm)}
    {sweep : Sweep} (h : run eps known value rows = .ok sweep) :
    sweep.kept.length + sweep.collapsed.length = rows.length := by
  induction rows generalizing sweep with
  | nil => cases h; rfl
  | cons row rows ih =>
    obtain ⟨v, rhs⟩ := row
    simp only [run, bind, Except.bind, pure, Except.pure] at h
    split at h
    · split at h
      · cases h
      · split at h
        · cases h
        · rename_i rest hrest
          have := ih hrest
          cases h
          simp only [consChanged]
          split <;> simp only [List.length_cons] <;> omega
    · split at h
      · cases h
      · rename_i rest hrest
        have := ih hrest
        cases h
        simp only [consKept, List.length_cons]
        omega

end Sweep

namespace Progress

/-- Makes `v` a solved variable and tells the host, if there is one. -/
def learn (setting : Setting) (progress : Progress) (row : Var × Rat) : Progress where
  store := progress.store.setSolved row.1 row.2
  events := progress.events ++ .solution row.1 row.2 ::
    (if setting.host.isSome then [.notified row.1 row.2] else [])

/-- Carries a round out: dependencies change, and the collapsed ones become solutions. -/
def afterSweep (setting : Setting) (progress : Progress) (sweep : Sweep) : Progress :=
  sweep.collapsed.foldl (learn setting)
    { store := { progress.store with dependents := Table.ofRows sweep.kept }
      events := progress.events ++ sweep.changed.map fun (v, rhs) => .changed v rhs }

theorem dependents_foldl_learn (setting : Setting) (rows : List (Var × Rat))
    (progress : Progress) :
    (rows.foldl (learn setting) progress).store.dependents = progress.store.dependents := by
  induction rows generalizing progress with
  | nil => rfl
  | cons row rows ih => rw [List.foldl_cons, ih]; rfl

theorem dependents_afterSweep (setting : Setting) (progress : Progress) (sweep : Sweep) :
    (progress.afterSweep setting sweep).store.dependents = Table.ofRows sweep.kept :=
  dependents_foldl_learn ..

/-- Substitutes the rules that are `pending` into every dependency, one after the other. -/
def propagate (setting : Setting) (progress : Progress) (pending : List (Var × LinearForm)) :
    Except Misuse Progress :=
  match pending with
  | [] => .ok progress
  | (known, value) :: pending =>
    match _ : Sweep.run setting.threshold known value progress.store.dependents.toList with
    | .error misuse => .error misuse
    | .ok sweep =>
      propagate setting (progress.afterSweep setting sweep)
        (pending ++ sweep.collapsed.map fun (v, c) => (v, LinearForm.ofConstant c))
termination_by 2 * progress.store.dependents.size + pending.length
decreasing_by
  rename_i h
  have := Sweep.length_run h
  simp only [dependents_afterSweep, Table.size, Table.ofRows, Table.toList, List.size_toArray,
    Array.length_toList, List.length_append, List.length_map, List.length_cons] at this ⊢
  omega

end Progress

end SolvedForm
