import SolvedForm.Proofs.Solver.Safety

/-!
# A rejected equation has no effect

An equation that is rejected leaves the solver as it was, and the host hears nothing of it
(`Outcome.HasNoEffect`). So a batch that stops at an equation does exactly what the equations before
it do as a batch of their own, retirements at the end included, and those after it do not matter
(`Solver.StopsAt`, `Run.atomic_of_calls`).
-/

namespace SolvedForm

variable {setting : Setting} {p : LinearForm} {ps before after : List LinearForm}
  {rejection : Rejection}

theorem Event.notification?_of_not_isEntry {event : Event} (h : event.isEntry = false) :
    event.notification? = none := by
  cases event with
  | notified => cases h
  | _ => rfl

namespace Progress

variable {settings : Nat → Setting} {progress : Progress} {attempt last failed : Attempt}

/-- Of an equation that is rejected only lines of the log tell. -/
theorem Asserted.events_of_error (ha : Asserted setting progress p attempt)
    (hverdict : attempt.verdict ≠ .ok ()) :
    ∃ added, attempt.events = progress.events ++ added ∧
      ∀ event ∈ added, event.isEntry = false := by
  cases ha with
  | noHost | invalid => exact ⟨[], (List.append_nil _).symm, fun _ he => absurd he List.not_mem_nil⟩
  | @inconsistent _ _ q expand r =>
    refine ⟨[.asserted p, .offBy r], List.append_assoc .., ?_⟩
    simp [Event.isEntry]
  | redundant | solved => exact absurd rfl hverdict

theorem Asserted.notifications_of_error (ha : Asserted setting progress p attempt)
    (hverdict : attempt.verdict ≠ .ok ()) : attempt.notifications = progress.notifications := by
  obtain ⟨added, hevents, hadded⟩ := ha.events_of_error hverdict
  have hsilent : added.filterMap Event.notification? = [] :=
    List.filterMap_eq_nil_iff.mpr fun _ he => Event.notification?_of_not_isEntry (hadded _ he)
  rw [notifications, hevents, List.filterMap_append, hsilent, List.append_nil, notifications]

theorem assertAll_append_of_accepted {index : Nat}
    (hbefore : progress.assertAll settings index before = .ok last) (hok : last.verdict = .ok ()) :
    progress.assertAll settings index (before ++ ps) =
      last.toProgress.assertAll settings (index + before.length) ps := by
  induction before generalizing progress index with
  | nil =>
    cases hbefore
    rfl
  | cons q before ih =>
    cases hassert : (progress.record (.fromBatch index)).assert (settings index) q with
    | error misuse =>
      rw [assertAll, hassert] at hbefore
      cases hbefore
    | ok first =>
      cases hverdict : first.verdict with
      | error rejection =>
        rw [assertAll_cons_of_rejected hassert hverdict] at hbefore
        cases hbefore
        cases hverdict.symm.trans hok
      | ok =>
        rw [assertAll_cons_of_accepted hassert hverdict] at hbefore
        rw [List.cons_append, assertAll_cons_of_accepted hassert hverdict, ih hbefore,
          List.length_cons, Nat.add_right_comm, Nat.add_assoc]

theorem assertAll_of_rejected {index : Nat}
    (hbefore : progress.assertAll settings index before = .ok last) (hok : last.verdict = .ok ())
    (hassert : (last.toProgress.record (.fromBatch (index + before.length))).assert
      (settings (index + before.length)) p = .ok failed)
    (hverdict : failed.verdict = .error rejection) :
    progress.assertAll settings index (before ++ p :: after) = .ok failed := by
  rw [assertAll_append_of_accepted hbefore hok, assertAll_cons_of_rejected hassert hverdict]

theorem exists_finish_eq (setting : Setting) {first second : Progress} (h : first.store.WellFormed)
    (hstore : second.store = first.store) (hnotes : second.notifications = first.notifications) :
    ∃ first' second', first.finish setting = .ok first' ∧ second.finish setting = .ok second' ∧
      second'.store = first'.store ∧ second'.notifications = first'.notifications := by
  have hfresh : ({ store := first.store } : Progress).store.WellFormed := h
  obtain ⟨last, hlast, -⟩ := exists_finish setting hfresh
  refine ⟨last.following first.events, last.following second.events, finish_of_fresh hlast,
    finish_of_fresh ?_, rfl, ?_⟩
  · rw [hstore, hlast]
  · rw [notifications_following, notifications_following]
    exact congrArg (· ++ last.notifications) hnotes

end Progress

/-- The call left the solver as it was, told the host nothing, and retired no variable. -/
structure Outcome.HasNoEffect (outcome : Outcome) (solver : Solver) : Prop where
  solver_eq : outcome.solver = solver
  notifications_eq : outcome.notifications = []
  not_retired : ∀ v, Event.retired v ∉ outcome.events

namespace Solver

variable {solver : Solver}

theorem exists_add_hasNoEffect (h : solver.store.WellFormed) (hp : p.WellFormed) :
    ∃ outcome, solver.add p = .ok outcome ∧
      ∀ rejection, outcome.verdict = .error rejection → outcome.HasNoEffect solver := by
  obtain ⟨outcome, hadd, hadded⟩ := exists_added h hp
  refine ⟨outcome, hadd, fun rejection herror => ?_⟩
  cases hadded with
  | accepted _ _ haccepted => cases haccepted.symm.trans herror
  | @rejected attempt ha hrejected outcome_eq =>
    subst outcome
    refine ⟨?_, ha.notifications_of_error hrejected, fun v hv => ?_⟩
    · exact congrArg (Solver.mk solver.toSetting) (ha.store_eq_of_error hrejected)
    · obtain ⟨added, hevents, hadded⟩ := ha.events_of_error hrejected
      have hv : Event.retired v ∈ attempt.events := hv
      rw [hevents] at hv
      cases hadded _ hv

/-- The batch `before ++ p :: after` ends with `batch` whatever comes after, as `p` is rejected. -/
structure StopsAt (solver : Solver) (before : List LinearForm) (p : LinearForm)
    (rejection : Rejection) (batch : Outcome) : Prop where
  /-- The equations before are accepted in order, and `p` is rejected by the store they leave. -/
  rejected : ∃ last outcome,
    solver.progress.assertAll (fun _ => solver.toSetting) 0 before = .ok last ∧
    last.verdict = .ok () ∧ { solver with store := last.store }.add p = .ok outcome ∧
    outcome.verdict = .error rejection
  /-- The equations before are a batch that does the same, what retires at its end included. -/
  alone : ∃ accepted, solver.addAll before = .ok accepted ∧ accepted.verdict = .ok () ∧
    batch.solver = accepted.solver ∧ batch.notifications = accepted.notifications
  ignored : ∀ after, solver.addAll (before ++ p :: after) = .ok batch

theorem exists_addAll_stopsAt (h : solver.store.WellFormed) (hps : ∀ p ∈ ps, p.WellFormed) :
    ∃ batch, solver.addAll ps = .ok batch ∧ ∀ rejection, batch.verdict = .error rejection →
      ∃ before p after, ps = before ++ p :: after ∧ solver.StopsAt before p rejection batch := by
  have hprogress : solver.progress.store.WellFormed := h
  obtain ⟨attempt, hassert, hwf, -⟩ := Progress.exists_assertAll hprogress 0 ps hps
  obtain ⟨fin, hfinish, -⟩ := Progress.exists_finish solver.toSetting hwf
  refine ⟨_, addAll_of_finish hassert hfinish, fun rejection hverdict => ?_⟩
  have hverdict : attempt.verdict = .error rejection := hverdict
  have hrejected : attempt.verdict ≠ .ok () := by
    rw [hverdict]
    exact nofun
  obtain ⟨before, p, after, last, rfl, hlast, hok, hwf', ha⟩ :=
    Progress.exists_split_of_rejected hprogress hps hassert hrejected
  have hp : p.WellFormed := hps p (List.mem_append_right _ (List.mem_cons_self ..))
  have hfailed := ha.assert_eq hwf' hp
  have hstore : attempt.store = last.store := ha.store_eq_of_error hrejected
  refine ⟨before, p, after, rfl, ?_, ?_, fun after => ?_⟩
  -- the verdict does not depend on the events of the equations before
  · let reached : Solver := { solver with store := last.store }
    have hreached : reached.progress.store.WellFormed := hwf'
    obtain ⟨first, hfirst, -⟩ := Progress.exists_assert reached.toSetting hreached hp
    have hstore' : reached.progress.store = last.toProgress.store := rfl
    have hsame := Progress.assert_fromBatch (0 + before.length) hstore' rfl hfirst
    cases hsame.symm.trans hfailed
    exact ⟨last, _, hlast, hok, add_of_rejected hfirst hverdict, hverdict⟩
  -- nor does what happens at the end of the batch
  · have hnotes : attempt.notifications = last.notifications :=
      (ha.notifications_of_error hrejected).trans (Progress.notifications_record rfl)
    obtain ⟨alone, fin', halone, hfin', hstore', hnotes'⟩ :=
      Progress.exists_finish_eq solver.toSetting hwf' hstore hnotes
    cases hfinish.symm.trans hfin'
    refine ⟨_, addAll_of_finish hlast halone, hok, ?_, hnotes'⟩
    exact congrArg (Solver.mk solver.toSetting) hstore'
  · exact addAll_of_finish (Progress.assertAll_of_rejected hlast hok hfailed hverdict) hfinish

/-- Equations that the solver rejects have no effect, also within a batch. -/
structure Atomic (solver : Solver) : Prop where
  add : ∀ p : LinearForm, p.WellFormed → ∃ outcome, solver.add p = .ok outcome ∧
    ∀ rejection, outcome.verdict = .error rejection → outcome.HasNoEffect solver
  addAll : ∀ ps : List LinearForm, (∀ p ∈ ps, p.WellFormed) →
    ∃ batch, solver.addAll ps = .ok batch ∧ ∀ rejection, batch.verdict = .error rejection →
      ∃ before p after, ps = before ++ p :: after ∧ solver.StopsAt before p rejection batch

end Solver

namespace Run

/-- Whatever has happened before, and whether there is a host or not, errors are atomic. -/
theorem atomic_of_calls (setting : Setting) {calls : List Call}
    (hcalls : ∀ call ∈ calls, call.WellFormed) :
    ∃ run, (start setting).calls calls = .ok run ∧ run.solver.Atomic := by
  obtain ⟨run, hrun, h⟩ := exists_calls (start setting) Store.wellFormed_empty hcalls
  exact ⟨run, hrun, fun _ => Solver.exists_add_hasNoEffect h,
    fun _ => Solver.exists_addAll_stopsAt h⟩

/-- The batch stops at `x₁ = 2x₃ - 1`, which contradicts the equations before it. These still make
`x₄` retire and `x₂` be solved by that. -/
theorem atomic_of_calls_retiring :
    ∃ run, (start {}).calls [.attach { nameOf := Var.genericName, isRetired := fun v => v == 4 },
        .add (.ofTerms (-2) [(5, 1)])] = .ok run ∧
      (∃ outcome, run.solver.add (.ofTerms (-3) [(5, 1)]) = .ok outcome ∧
        outcome.verdict = .error (.inconsistent (-1)) ∧ outcome.HasNoEffect run.solver) ∧
      ∃ before p after batch,
        [.ofTerms 0 [(1, 1), (3, -1), (4, -1)], .ofTerms 0 [(2, 1), (4, -1 / 100000)],
          .ofTerms 0 [(3, 1), (4, -1)], .ofTerms 1 [(1, 1), (3, -2)], .ofTerms 0 [(6, 1)]] =
          before ++ p :: after ∧
        run.solver.StopsAt before p (.inconsistent 1) batch ∧ batch.notifications = [(2, 0)] := by
  refine (atomic_of_calls {} ?_).imp fun run h => ⟨h.1, ?_⟩
  · simp [Call.WellFormed, LinearForm.WellFormed.ofTerms]
  obtain ⟨hrun, hatomic⟩ := h
  obtain ⟨outcome, hadd, heffect⟩ := hatomic.add (.ofTerms (-3) [(5, 1)]) (.ofTerms ..)
  obtain ⟨batch, hbatch, hstops⟩ := hatomic.addAll [.ofTerms 0 [(1, 1), (3, -1), (4, -1)],
    .ofTerms 0 [(2, 1), (4, -1 / 100000)], .ofTerms 0 [(3, 1), (4, -1)],
    .ofTerms 1 [(1, 1), (3, -2)], .ofTerms 0 [(6, 1)]] (by simp [LinearForm.WellFormed.ofTerms])
  have hverdict := apply_eq_of_map_eq_ok (b := .ok (.error (.inconsistent (-1))))
    (f := fun run : Run => (run.solver.add (.ofTerms (-3) [(5, 1)])).map Outcome.verdict)
    hrun (by decide +kernel)
  have hfacts := apply_eq_of_map_eq_ok (b := .ok (.error (.inconsistent 1), [(2, 0)]))
    (f := fun run : Run => (run.solver.addAll [.ofTerms 0 [(1, 1), (3, -1), (4, -1)],
      .ofTerms 0 [(2, 1), (4, -1 / 100000)], .ofTerms 0 [(3, 1), (4, -1)],
      .ofTerms 1 [(1, 1), (3, -2)], .ofTerms 0 [(6, 1)]]).map fun batch =>
        (batch.verdict, batch.notifications)) hrun (by decide +kernel)
  rw [hadd, Except.map, Except.ok.injEq] at hverdict
  rw [hbatch, Except.map, Except.ok.injEq, Prod.mk.injEq] at hfacts
  obtain ⟨before, p, after, hsplit, hstop⟩ := hstops _ hfacts.1
  exact ⟨⟨outcome, hadd, hverdict, heffect _ hverdict⟩, before, p, after, batch, hsplit, hstop,
    hfacts.2⟩

end Run

end SolvedForm
