import SolvedForm.Solver.Log
import SolvedForm.Proofs.Solver.Ledger

/-!
# How often the host hears of a variable

The events of a whole run are a ledger of its solutions (`Run.Recorded`): a solver without a host
knows nothing, so nothing is solved unheard. Hence a variable is notified at most once more often
than it is retired (`Run.countP_notifies_le_of_calls`), and at most once if it never retires.
-/

namespace SolvedForm

/-- A computation whose result has a known image goes through. -/
theorem exists_of_map_eq_ok {ε α β : Type} {x : Except ε α} {f : α → β} {b : β}
    (h : x.map f = .ok b) : ∃ a, x = .ok a ∧ f a = b := by
  cases x with
  | error e => cases h
  | ok a =>
    cases h
    exact ⟨a, rfl, rfl⟩

theorem apply_eq_of_map_eq_ok {ε α β : Type} {x : Except ε α} {a : α} {f : α → β} {b : β}
    (hx : x = .ok a) (h : x.map f = .ok b) : f a = b := by
  rw [hx] at h
  exact Except.ok.inj h

namespace Solver

variable {solver : Solver} {p : LinearForm} {ps : List LinearForm} {v : Var} {outcome : Outcome}
  {settings : Nat → Setting} {later : Setting}

theorem ledger_add (h : solver.store.WellFormed) (hp : p.WellFormed)
    (hadd : solver.add p later = .ok outcome) :
    Ledger solver.store.solved outcome.events outcome.solver.store.solved := by
  have hprogress : solver.progress.store.WellFormed := h
  have hbooked : solver.progress.Booked solver.store.solved := .nil
  obtain ⟨attempt, hassert, ha⟩ := Progress.exists_assert solver.toSetting hprogress hp
  have hattempt := hbooked.assert hprogress hp hassert
  cases hverdict : attempt.verdict with
  | error rejection =>
    cases hadd.symm.trans (add_of_rejected hassert hverdict)
    exact hattempt
  | ok =>
    obtain ⟨last, hfinish, -⟩ := Progress.exists_finish later (ha.wellFormed hprogress hp)
    cases hadd.symm.trans (add_of_accepted hassert hverdict hfinish)
    exact hattempt.finish (ha.wellFormed hprogress hp) hfinish

theorem ledger_addAll (h : solver.store.WellFormed) (hps : ∀ p ∈ ps, p.WellFormed)
    (hadd : solver.addAll ps settings later = .ok outcome) :
    Ledger solver.store.solved outcome.events outcome.solver.store.solved := by
  have hprogress : solver.progress.store.WellFormed := h
  have hbooked : solver.progress.Booked solver.store.solved := .nil
  obtain ⟨attempt, hassert, hwf, -⟩ := Progress.exists_assertAll hprogress 0 ps hps
  obtain ⟨last, hfinish, -⟩ := Progress.exists_finish later hwf
  cases hadd.symm.trans (addAll_of_finish hassert hfinish)
  exact (hbooked.assertAll hprogress hps hassert).finish hwf hfinish

theorem ledger_retire (h : solver.store.WellFormed)
    (hheard : solver.host ≠ none ∨ solver.store.dependents.toList = [])
    (hretire : solver.retire v = .ok outcome) :
    Ledger solver.store.solved outcome.events outcome.solver.store.solved := by
  have hprogress : solver.progress.store.WellFormed := h
  have hbooked : solver.progress.Booked solver.store.solved := .nil
  obtain ⟨last, hlast, -⟩ := Progress.exists_retire solver.toSetting hprogress v
  rw [retire, hlast] at hretire
  cases hretire
  exact hbooked.retire hheard hprogress hlast

theorem ledger_retireReported (h : solver.store.WellFormed)
    (hretire : solver.retireReported = .ok outcome) :
    Ledger solver.store.solved outcome.events outcome.solver.store.solved := by
  have hprogress : solver.progress.store.WellFormed := h
  have hbooked : solver.progress.Booked solver.store.solved := .nil
  obtain ⟨last, hlast, -⟩ := Progress.exists_retireReported solver.toSetting hprogress
  rw [retireReported, hlast] at hretire
  cases hretire
  exact hbooked.retireReported hprogress hlast

theorem add_of_host_none (hhost : solver.host = none) :
    solver.add p later = .ok (solver.outcome solver.progress (.error .noHost)) := by
  rw [add, Progress.assert, hhost]
  rfl

theorem addAll_of_host_none (hsettings : ∀ i, (settings i).host = none) (hlater : later.host = none)
    (hadd : solver.addAll ps settings later = .ok outcome) : outcome.solver = solver := by
  have hfinish := Progress.finish_of_not_isRetired (Setting.isRetired_of_host_none hlater)
  cases ps with
  | nil =>
    rw [addAll, Progress.assertAll] at hadd
    simp only [bind, Except.bind, hfinish] at hadd
    cases hadd
    rfl
  | cons p ps =>
    rw [addAll, Progress.assertAll, Progress.assert, hsettings] at hadd
    simp only [bind, Except.bind, Option.isNone_none, if_true, Progress.reject, pure, Except.pure,
      hfinish] at hadd
    cases hadd
    rfl

theorem retireReported_of_host_none (hhost : solver.host = none) :
    solver.retireReported = .ok (solver.outcome solver.progress) := by
  rw [retireReported, Progress.retireReported_of_none (Setting.isRetired_of_host_none hhost)]
  rfl

theorem retire_of_store_empty (hstore : solver.store = {})
    (hretire : solver.retire v = .ok outcome) : outcome.solver.store = {} := by
  have hwf : solver.store.WellFormed := hstore ▸ Store.wellFormed_empty
  rw [eq_of_retire hwf hretire, hstore]
  show Store.retire {} solver.threshold v = {}
  rw [Store.retire, Store.forget_of_not_knows rfl]
  rfl

end Solver

/-- A call is a ledger of what it solves, and a solver still knows nothing after it if it has not
got a host. -/
theorem Call.ledger {solver : Solver} (h : solver.store.WellFormed)
    (hempty : solver.host = none → solver.store = {}) {call : Call} (hcall : call.WellFormed)
    {outcome : Outcome} (houtcome : call.outcome solver = .ok outcome) :
    Ledger solver.store.solved outcome.events outcome.solver.store.solved ∧
      (outcome.solver.host = none → outcome.solver.store = {}) := by
  -- a collapse goes unheard only where there is nothing to collapse
  have hheard : solver.host ≠ none ∨ solver.store.dependents.toList = [] := by
    by_cases hhost : solver.host = none
    · rw [hempty hhost]
      exact .inr rfl
    · exact .inl hhost
  cases call with
  | add p later =>
    refine ⟨Solver.ledger_add h hcall houtcome, fun hhost => ?_⟩
    obtain ⟨outcome', hadd, hsetting, -⟩ := Solver.exists_add h hcall
    cases houtcome.symm.trans hadd
    rw [hsetting] at hhost
    cases houtcome.symm.trans (Solver.add_of_host_none hhost)
    exact hempty hhost
  | addAll ps reports later =>
    refine ⟨Solver.ledger_addAll h hcall houtcome, fun hhost => ?_⟩
    obtain ⟨outcome', hadd, hsetting, -⟩ := Solver.exists_addAll h hcall
    cases houtcome.symm.trans hadd
    rw [hsetting] at hhost
    have hnone (report : Option (Var → Bool)) : (solver.afterReport report).host = none :=
      Setting.host_afterReport_eq_none.mpr hhost
    rw [Solver.addAll_of_host_none (fun _ => hnone _) (hnone later) houtcome, hempty hhost]
  | retire v =>
    refine ⟨Solver.ledger_retire h hheard houtcome, fun hhost => ?_⟩
    obtain ⟨outcome', hretire, hsetting, -⟩ := Solver.exists_retire h v
    cases houtcome.symm.trans hretire
    rw [hsetting] at hhost
    exact Solver.retire_of_store_empty (hempty hhost) houtcome
  | retireReported =>
    refine ⟨Solver.ledger_retireReported h houtcome, fun hhost => ?_⟩
    obtain ⟨outcome', hretire, hsetting, -⟩ := Solver.exists_retireReported h
    cases houtcome.symm.trans hretire
    rw [hsetting] at hhost
    cases houtcome.symm.trans (Solver.retireReported_of_host_none hhost)
    exact hempty hhost
  | setThreshold eps =>
    cases houtcome
    exact ⟨.nil, hempty⟩
  | attach host =>
    cases houtcome
    exact ⟨.nil, fun hhost => by cases hhost⟩
  | report isRetired =>
    cases houtcome
    exact ⟨.nil, fun hhost => hempty (Option.map_eq_none_iff.mp hhost)⟩

/-- The events of the run are the ledger of its solutions. -/
structure Run.Recorded (run : Run) : Prop where
  wellFormed : run.solver.store.WellFormed
  ledger : Ledger {} run.events run.solver.store.solved
  store_eq_empty : run.solver.host = none → run.solver.store = {}

namespace Run

variable {run : Run}

theorem recorded_start (setting : Setting) : (start setting).Recorded :=
  ⟨Store.wellFormed_empty, .nil, fun _ => rfl⟩

theorem Recorded.call (h : run.Recorded) {call : Call} (hcall : call.WellFormed) :
    ∃ run', run.call call = .ok run' ∧ run'.Recorded := by
  obtain ⟨outcome, houtcome, hwf, -⟩ := Call.exists_outcome h.wellFormed hcall
  obtain ⟨hledger, hempty⟩ := Call.ledger h.wellFormed h.store_eq_empty hcall houtcome
  exact ⟨_, call_eq_ok houtcome, hwf, h.ledger.append hledger, hempty⟩

theorem exists_calls_recorded (setting : Setting) {calls : List Call}
    (hcalls : ∀ call ∈ calls, call.WellFormed) :
    ∃ run, (start setting).calls calls = .ok run ∧ run.Recorded :=
  exists_foldlM Recorded Call.WellFormed (fun _ _ h hcall => h.call hcall) calls _ hcalls
    (recorded_start setting)

/-- The host hears the value of a variable at most once more often than the variable retires. -/
theorem countP_notifies_le_of_calls (setting : Setting) {calls : List Call}
    (hcalls : ∀ call ∈ calls, call.WellFormed) :
    ∃ run, (start setting).calls calls = .ok run ∧
      ∀ v, run.events.countP (Event.notifies v) ≤ run.events.countP (Event.retires v) + 1 := by
  obtain ⟨run, hrun, h⟩ := exists_calls_recorded setting hcalls
  refine ⟨run, hrun, fun v => ?_⟩
  have hstart : ({} : Table Rat).Sorted := List.Pairwise.nil
  have hle := h.ledger.countP_notifies_le hstart v
  have hsolved := Bool.toNat_le (run.solver.store.solved.contains v)
  omega

theorem countP_notifies_le_of_calls_retiring :
    ∃ run, (start {}).calls [.attach { nameOf := Var.genericName, isRetired := fun v => v == 2 },
        .add (.ofTerms (-1) [(1, 1), (2, -3)]), .addAll [.ofTerms 5 [(2, 1)], .ofTerms 2 [(1, 1)]],
        .retire 1, .setThreshold 0, .add (.ofTerms 7 [(1, 2), (3, 1)]), .retireReported] =
          .ok run ∧
      ∀ v, run.events.countP (Event.notifies v) ≤ run.events.countP (Event.retires v) + 1 :=
  countP_notifies_le_of_calls {} (by simp [Call.WellFormed, LinearForm.WellFormed.ofTerms])

theorem notified_again_after_retirement :
    ∃ run, (start { host := some { nameOf := Var.genericName } }).calls
        [.add (.ofTerms (-2) [(1, 1)]), .retire 1, .add (.ofTerms (-3) [(1, 1)])] = .ok run ∧
      run.events.filterMap Event.notification? = [(1, 2), (1, 3)] :=
  exists_of_map_eq_ok (by decide +kernel)

end Run

end SolvedForm
