import SolvedForm.Proofs.LinearForm.Construction
import SolvedForm.Proofs.Solver.Batching

/-!
# No call misuses anything

A call on a reachable solver ends with an outcome, never with a `Misuse`, if its equations were
built by operations on forms (`Run.goesThrough_of_calls`). In particular the coefficient of a pivot
is never zero (`Setting.divides_of_pivot?`), so that an equation is rejected for a division by zero
only if it came invalid.
-/

namespace SolvedForm

variable {setting : Setting} {store : Store} {p q : LinearForm} {ps : List LinearForm} {v : Var}
  {c : Rat}

theorem Setting.divides_of_pivot? (hq : q.WellFormed)
    (hpivot : setting.pivot? store q = some (v, c)) :
    ∃ rest rhs, q.setTerm v 0 = .ok rest ∧ rest.divide (-c) = .ok rhs := by
  have hmem := Setting.mem_of_pivot? hpivot
  refine ⟨q.withCoeff v 0, _, if_neg (hq.key_ne_constant _ hmem), if_neg ?_⟩
  exact neg_ne_zero.mpr (hq.coeff_ne_zero _ hmem)

namespace Progress

variable {settings : Nat → Setting} {progress : Progress} {attempt : Attempt}

theorem Asserted.verdict_eq_divisionByZero_iff (ha : Asserted setting progress p attempt) :
    attempt.verdict = .error .divisionByZero ↔ setting.host ≠ none ∧ p.valid = false := by
  cases ha with
  | noHost host => exact iff_of_false nofun fun h => h.1 host
  | invalid host invalid => exact iff_of_true rfl ⟨host, invalid⟩
  | redundant _ valid | inconsistent _ valid | solved _ valid =>
    exact iff_of_false nofun fun h => Bool.false_ne_true (h.2.symm.trans valid)

theorem Asserted.verdict_eq_noHost_iff (ha : Asserted setting progress p attempt) :
    attempt.verdict = .error .noHost ↔ setting.host = none := by
  cases ha with
  | noHost host => exact iff_of_true rfl host
  | invalid host | redundant host | inconsistent host | solved host =>
    exact iff_of_false nofun host

theorem exists_split_of_rejected (h : progress.store.WellFormed) (hps : ∀ p ∈ ps, p.WellFormed)
    {index : Nat} (hassert : progress.assertAll settings index ps = .ok attempt)
    (hrejected : attempt.verdict ≠ .ok ()) :
    ∃ before p after last, ps = before ++ p :: after ∧
      progress.assertAll settings index before = .ok last ∧ last.verdict = .ok () ∧
      last.store.WellFormed ∧ Asserted (settings (index + before.length))
        (last.toProgress.record (.fromBatch (index + before.length))) p attempt := by
  induction ps generalizing progress index with
  | nil =>
    cases hassert
    exact absurd rfl hrejected
  | cons p ps ih =>
    obtain ⟨hp, hps⟩ := List.forall_mem_cons.mp hps
    have hrecord : (progress.record (.fromBatch index)).store.WellFormed := h
    obtain ⟨first, hfirst, ha⟩ := exists_assert (settings index) hrecord hp
    cases hverdict : first.verdict with
    | error rejection =>
      rw [assertAll_cons_of_rejected hfirst hverdict] at hassert
      cases hassert
      exact ⟨[], p, ps, progress.accept, rfl, rfl, rfl, h, ha⟩
    | ok =>
      rw [assertAll_cons_of_accepted hfirst hverdict] at hassert
      obtain ⟨before, q, after, last, rfl, hlast, hok, hwf, ha'⟩ :=
        ih (ha.wellFormed hrecord hp) hps hassert
      -- the rest of the batch is counted from the next index
      rw [Nat.add_right_comm] at ha'
      refine ⟨p :: before, q, after, last, rfl, ?_, hok, hwf, ha'⟩
      rw [assertAll_cons_of_accepted hfirst hverdict, hlast]

end Progress

namespace Solver

variable {solver : Solver} {settings : Nat → Setting} {later : Setting}

theorem exists_add_asserted (h : solver.store.WellFormed) (hp : p.WellFormed) :
    ∃ attempt outcome, Progress.Asserted solver.toSetting solver.progress p attempt ∧
      solver.add p later = .ok outcome ∧ outcome.verdict = attempt.verdict := by
  obtain ⟨outcome, hadd, hadded⟩ := exists_added h hp
  cases hadded with
  | rejected ha _ outcome_eq => exact ⟨_, outcome, ha, hadd, by rw [outcome_eq]; rfl⟩
  | accepted ha hverdict haccepted => exact ⟨_, outcome, ha, hadd, haccepted.trans hverdict.symm⟩

theorem exists_addAll_split (h : solver.store.WellFormed) (hps : ∀ p ∈ ps, p.WellFormed) :
    ∃ outcome, solver.addAll ps settings later = .ok outcome ∧ (outcome.verdict ≠ .ok () →
      ∃ before p after accepted, ps = before ++ p :: after ∧
        solver.addAll before settings later = .ok accepted ∧ accepted.verdict = .ok () ∧
        ∃ i reached attempt, Progress.Asserted (settings i) reached p attempt ∧
          outcome.verdict = attempt.verdict) := by
  have hprogress : solver.progress.store.WellFormed := h
  obtain ⟨attempt, hassert, hwf, -⟩ := Progress.exists_assertAll hprogress 0 ps hps
  obtain ⟨outcome, hadd, hverdict, -⟩ := exists_addAll_purge hwf hassert
  refine ⟨outcome, hadd, fun hrejected => ?_⟩
  rw [hverdict] at hrejected
  obtain ⟨before, p, after, last, hsplit, hlast, hok, hwf', ha⟩ :=
    Progress.exists_split_of_rejected hprogress hps hassert hrejected
  obtain ⟨accepted, hbefore, haccepted, -⟩ := exists_addAll_purge hwf' hlast
  exact ⟨before, p, after, accepted, hsplit, hbefore, haccepted.trans hok, _, _, attempt, ha,
    hverdict⟩

/-- What a solver does with any variables and with equations that were built by operations on forms,
whatever the host reports in the course of a call. -/
structure GoesThrough (solver : Solver) : Prop where
  add : ∀ (p : LinearForm) (later : Option (Var → Bool)), p.Built →
    ∃ outcome, solver.add p (solver.afterReport later) = .ok outcome ∧
    (outcome.verdict = .error .divisionByZero ↔ solver.host ≠ none ∧ p.valid = false) ∧
    (outcome.verdict = .error .noHost ↔ solver.host = none)
  /-- A batch divides by zero only where an invalid equation comes next. -/
  addAll : ∀ (ps : List LinearForm) (reports : Option (Nat → Var → Bool))
    (later : Option (Var → Bool)), (∀ p ∈ ps, p.Built) →
    ∃ outcome, solver.addAll ps (solver.atEquation reports) (solver.afterReport later) =
      .ok outcome ∧
    (outcome.verdict = .error .divisionByZero → ∃ before p after accepted,
      ps = before ++ p :: after ∧ p.valid = false ∧
        solver.addAll before (solver.atEquation reports) (solver.afterReport later) =
          .ok accepted ∧ accepted.verdict = .ok ()) ∧
    (outcome.verdict = .error .noHost → solver.host = none)
  retire : ∀ v, ∃ outcome, solver.retire v = .ok outcome
  retireReported : ∃ outcome, solver.retireReported = .ok outcome
  /-- The coefficient of the pivot divides the rest of the equation. -/
  divide : ∀ p : LinearForm, p.Built → ∃ q, solver.store.reduce solver.threshold p = .ok q ∧
    ∀ v c, solver.pivot? solver.store q = some (v, c) →
      ∃ rest rhs, q.setTerm v 0 = .ok rest ∧ rest.divide (-c) = .ok rhs

theorem goesThrough (h : solver.store.WellFormed) : solver.GoesThrough where
  add p later hp := by
    obtain ⟨attempt, outcome, ha, hadd, hverdict⟩ := exists_add_asserted h hp.wellFormed
    refine ⟨outcome, hadd, ?_⟩
    rw [hverdict]
    exact ⟨ha.verdict_eq_divisionByZero_iff, ha.verdict_eq_noHost_iff⟩
  addAll ps reports later hps := by
    obtain ⟨outcome, hadd, hsplit⟩ := exists_addAll_split h fun p hp => (hps p hp).wellFormed
    refine ⟨outcome, hadd, fun hzero => ?_, fun hnone => ?_⟩
    · obtain ⟨before, p, after, accepted, heq, hbefore, hok, i, reached, attempt, ha, hverdict⟩ :=
        hsplit (by rw [hzero]; exact nofun)
      rw [hzero] at hverdict
      exact ⟨before, p, after, accepted, heq,
        (ha.verdict_eq_divisionByZero_iff.mp hverdict.symm).2, hbefore, hok⟩
    · obtain ⟨_, _, _, _, _, _, _, i, reached, attempt, ha, hverdict⟩ :=
        hsplit (by rw [hnone]; exact nofun)
      rw [hnone] at hverdict
      exact Setting.host_afterReport_eq_none.mp (ha.verdict_eq_noHost_iff.mp hverdict.symm)
  retire v := (exists_retire h v).imp fun _ => And.left
  retireReported := (exists_retireReported h).imp fun _ => And.left
  divide p hp := by
    obtain ⟨q, hq, hexp⟩ := Store.exists_expand h hp.wellFormed
    exact ⟨q.flush solver.threshold, Store.reduce_of_expand hq _, fun v c hpivot =>
      Setting.divides_of_pivot? (hexp.wellFormed.flush _) hpivot⟩

end Solver

namespace Run

/-- Whatever a host has done before, no call of a solver misuses anything. -/
theorem goesThrough_of_calls (setting : Setting) {calls : List Call}
    (hcalls : ∀ call ∈ calls, call.WellFormed) :
    ∃ run, (start setting).calls calls = .ok run ∧ run.solver.GoesThrough := by
  obtain ⟨run, hrun, h⟩ := exists_calls (start setting) Store.wellFormed_empty hcalls
  exact ⟨run, hrun, Solver.goesThrough h⟩

/-- Two dependencies hold the retired `x₄`, the constant is retired, and an invalid equation and a
contradiction are in the batches. -/
theorem goesThrough_of_calls_rejecting :
    ∃ run, (start {}).calls [.add (.ofTerms 3 [(1, 1)]), .retire 0,
        .attach { nameOf := Var.genericName }, .setThreshold (-1),
        .addAll [.ofTerms 0 [(1, 1), (3, -1), (4, -1)], .ofTerms 0 [(2, 1), (4, -2)],
          ((LinearForm.ofTerms 1 [(5, 1)]).divideInPlace 0).1], .retire 4, .retire 0,
        .setThreshold 1000, .addAll [.ofTerms 2 [], .ofTerms 0 [(5, 1)]],
        .report fun v => v == 0 || v == 3, .retireReported] = .ok run ∧ run.solver.GoesThrough ∧
      ∃ outcome, run.solver.add ((LinearForm.ofTerms 1 [(5, 1)]).divideInPlace 0).1 =
        .ok outcome ∧ outcome.verdict = .error .divisionByZero := by
  refine (goesThrough_of_calls {} ?_).imp fun run h => ⟨h.1, h.2, ?_⟩
  · simp [Call.WellFormed, LinearForm.WellFormed.ofTerms, LinearForm.WellFormed.divideInPlace]
  obtain ⟨outcome, hadd, hzero, -⟩ := h.2.add _ none (.divideInPlace 0 (.ofTerms 1 [(5, 1)]))
  have hhost := apply_eq_of_map_eq_ok (b := true) (f := fun run : Run => run.solver.host.isSome)
    h.1 (by decide +kernel)
  exact ⟨outcome, hadd, hzero.mpr ⟨Option.isSome_iff_ne_none.mp hhost, rfl⟩⟩

end Run

end SolvedForm
