import SolvedForm.Solver.Assertion
import SolvedForm.Solver.Retirement
import SolvedForm.Proofs.Solver.Sweep

/-!
# What was reported before does not matter

A step of a call reads the store and the setting, and adds its events to those before. So asserting
an equation after some `earlier` events is asserting it without them, and then putting them in front
(`Progress.assert_following`). The same holds of retiring variables, and of the end of a call, which
therefore depends on the store alone (`Progress.finish_eq_following`).
-/

namespace SolvedForm

variable {setting : Setting} {earlier : List Event} {progress : Progress} {v : Var}

namespace Progress

/-- The same progress, if it is made after the events `earlier`. -/
def following (earlier : List Event) (progress : Progress) : Progress :=
  { progress with events := earlier ++ progress.events }

end Progress

/-- The same attempt, if it is made after the events `earlier`. -/
def Attempt.following (earlier : List Event) (attempt : Attempt) : Attempt :=
  { attempt with toProgress := attempt.toProgress.following earlier }

namespace Progress

theorem store_following (earlier : List Event) (progress : Progress) :
    (progress.following earlier).store = progress.store :=
  rfl

theorem store_record (progress : Progress) (event : Event) :
    (progress.record event).store = progress.store :=
  rfl

theorem record_following (earlier : List Event) (progress : Progress) (event : Event) :
    (progress.following earlier).record event = (progress.record event).following earlier := by
  simp [record, following]

theorem learn_following (setting : Setting) (earlier : List Event) (progress : Progress)
    (row : Var × Rat) :
    (progress.following earlier).learn setting row =
      (progress.learn setting row).following earlier := by
  simp [learn, following]

theorem foldl_learn_following (rows : List (Var × Rat)) :
    rows.foldl (learn setting) (progress.following earlier) =
      (rows.foldl (learn setting) progress).following earlier := by
  induction rows generalizing progress with
  | nil => rfl
  | cons row rows ih => rw [List.foldl_cons, learn_following, ih, List.foldl_cons]

theorem afterSweep_following (setting : Setting) (earlier : List Event) (progress : Progress)
    (sweep : Sweep) :
    (progress.following earlier).afterSweep setting sweep =
      (progress.afterSweep setting sweep).following earlier := by
  rw [afterSweep, afterSweep, ← foldl_learn_following]
  simp [following]

theorem propagate_following (pending : List (Var × LinearForm)) :
    propagate setting (progress.following earlier) pending =
      (propagate setting progress pending).map (following earlier) := by
  induction progress, pending using propagate.induct setting with
  | case1 progress =>
    rw [propagate, propagate]
    rfl
  | case2 progress known value pending misuse hrun =>
    rw [propagate_of_run_error hrun, propagate_of_run_error]
    · rfl
    · exact hrun
  | case3 progress known value pending sweep hrun ih =>
    rw [propagate_of_run_ok hrun, propagate_of_run_ok, afterSweep_following, ih]
    exact hrun

theorem addRule_following (rhs : LinearForm) :
    addRule setting (progress.following earlier) v rhs =
      (addRule setting progress v rhs).map (following earlier) := by
  unfold addRule
  cases rhs.value? with
  | some c =>
    dsimp only
    rw [learn_following, propagate_following]
  | none =>
    dsimp only
    rw [record_following, propagate_following]
    cases propagate setting (progress.record (.dependency v rhs)) [(v, rhs)] <;> rfl

theorem solve_following (p : LinearForm) :
    solve setting (progress.following earlier) p =
      (solve setting progress p).map (Attempt.following earlier) := by
  unfold solve
  rw [store_following]
  cases setting.pivot? progress.store p with
  | none => rfl
  | some pivot =>
    obtain ⟨v, c⟩ := pivot
    dsimp only
    split
    · rfl
    cases p.setTerm v 0 with
    | error misuse => rfl
    | ok rest =>
      simp only [bind, Except.bind]
      cases rest.divide (-c) with
      | error e => rfl
      | ok rhs =>
        simp only [addRule_following]
        cases progress.addRule setting v (rhs.flush setting.threshold) <;> rfl

theorem assert_following (setting : Setting) (earlier : List Event) (progress : Progress)
    (p : LinearForm) :
    (progress.following earlier).assert setting p =
      (progress.assert setting p).map (Attempt.following earlier) := by
  unfold assert
  split
  · rfl
  split
  · rfl
  simp only [record_following, store_following, store_record]
  cases progress.store.reduce setting.threshold p with
  | error misuse => rfl
  | ok reduced =>
    simp only [bind, Except.bind]
    cases reduced.value? with
    | none => exact solve_following reduced
    | some residue =>
      dsimp only
      split <;> rfl

theorem dropSolved_following (earlier : List Event) (progress : Progress) (v : Var) :
    (progress.following earlier).dropSolved v = (progress.dropSolved v).following earlier := by
  unfold dropSolved
  rw [store_following]
  split
  · exact record_following earlier (progress.withStore _) _
  · rfl

theorem dropDependent_following (earlier : List Event) (progress : Progress) (v : Var) :
    (progress.following earlier).dropDependent v =
      (progress.dropDependent v).following earlier := by
  unfold dropDependent
  rw [store_following]
  split
  · exact record_following earlier (progress.withStore _) _
  · rfl

theorem eliminate_following (v : Var) :
    eliminate setting (progress.following earlier) v =
      (eliminate setting progress v).map (following earlier) := by
  unfold eliminate
  rw [store_following]
  cases progress.store.dependents.toList.find? fun row => row.2.mentions v with
  | none => rfl
  | some row =>
    obtain ⟨y, rhs⟩ := row
    dsimp only
    cases rhs.solvedFor y v with
    | error misuse => rfl
    | ok expr =>
      simp only [bind, Except.bind]
      rw [← propagate_following, ← record_following]
      rfl

theorem retire_following (v : Var) :
    retire setting (progress.following earlier) v =
      (retire setting progress v).map (following earlier) := by
  unfold retire
  split
  · rfl
  · rw [record_following, dropSolved_following, dropDependent_following, eliminate_following]

theorem foldlM_retire_following (vs : List Var) :
    vs.foldlM (retire setting) (progress.following earlier) =
      (vs.foldlM (retire setting) progress).map (following earlier) := by
  induction vs generalizing progress with
  | nil => rfl
  | cons v vs ih =>
    rw [List.foldlM_cons, List.foldlM_cons, retire_following]
    cases retire setting progress v with
    | error misuse => rfl
    | ok next => exact ih

theorem finish_eq_following (setting : Setting) (progress : Progress) :
    progress.finish setting =
      (finish setting { store := progress.store }).map (following progress.events) := by
  have hprogress : progress = following progress.events { store := progress.store } := by
    simp [following]
  conv => lhs; rw [hprogress]
  unfold finish retireReported
  rw [foldlM_retire_following, store_following]
  cases List.foldlM (retire setting) { store := progress.store }
      (progress.store.mentioned.filter setting.isRetired) with
  | error misuse => rfl
  | ok last => exact congrArg Except.ok (record_following ..)

theorem finish_of_fresh {last : Progress}
    (hlast : finish setting { store := progress.store } = .ok last) :
    progress.finish setting = .ok (last.following progress.events) := by
  rw [finish_eq_following, hlast]
  rfl

end Progress

end SolvedForm
