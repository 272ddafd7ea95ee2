import SolvedForm.Proofs.Solver.Run

/-!
# Exact runs

In a quiet setting, where nothing is flushed and nothing retires, a run of valid equations loses and
invents no solution: the store has exactly the solutions of the accepted equations (`Run.Exact`),
each next equation is decided by them alone (`Store.Decides`), and a variable is solved as soon as
they determine it.
-/

namespace SolvedForm

/-- There is a host, nothing is flushed, and nothing retires. -/
structure Setting.Quiet (setting : Setting) : Prop where
  host_ne_none : setting.host ≠ none
  threshold_eq_zero : setting.threshold = 0
  not_isRetired : ∀ v, setting.isRetired v = false

/-- A setting without names, flushing or retired variables. -/
def Setting.plain : Setting where
  host := some { nameOf := Var.genericName }
  threshold := 0

theorem Setting.quiet_plain : Setting.plain.Quiet :=
  ⟨Option.some_ne_none _, rfl, fun _ => rfl⟩

/-- The call adds equations, and the host reports the same variables all along. -/
def Call.Feeds : Call → Prop
  | add p none => p.WellFormed ∧ p.valid
  | addAll ps none none => ∀ p ∈ ps, p.WellFormed ∧ p.valid
  | _ => False

namespace Progress

variable {settings : Nat → Setting} {progress : Progress} {p : LinearForm}

theorem exists_assertAll_append (h : progress.store.WellFormed) (hquiet : ∀ i, (settings i).Quiet)
    (index : Nat) (ps : List LinearForm) (hps : ∀ q ∈ ps, q.WellFormed) (hp : p.WellFormed)
    (hvalid : p.valid) :
    ∃ attempt next, progress.assertAll settings index ps = .ok attempt ∧
      progress.assertAll settings index (ps ++ [p]) = .ok next ∧
      (attempt.verdict = .ok () → attempt.store.Decides p next.verdict) ∧
      (attempt.verdict ≠ .ok () → next.verdict = attempt.verdict) := by
  induction ps generalizing progress index with
  | nil =>
    have hrecord : (progress.record (.fromBatch index)).store.WellFormed := h
    obtain ⟨next, hassert, ha⟩ := exists_assert (settings index) hrecord hp
    have hdecides := ha.decides hrecord hp hvalid (hquiet index).host_ne_none
      (hquiet index).threshold_eq_zero
    rw [List.nil_append]
    cases hverdict : next.verdict with
    | error rejection =>
      exact ⟨progress.accept, next, rfl, assertAll_cons_of_rejected hassert hverdict,
        fun _ => hdecides, fun hn => absurd rfl hn⟩
    | ok =>
      rw [hverdict] at hdecides
      exact ⟨progress.accept, next.toProgress.accept, rfl,
        assertAll_cons_of_accepted hassert hverdict, fun _ => hdecides, fun hn => absurd rfl hn⟩
  | cons q ps ih =>
    obtain ⟨hq, hps⟩ := List.forall_mem_cons.mp hps
    have hrecord : (progress.record (.fromBatch index)).store.WellFormed := h
    obtain ⟨attempt, hassert, ha⟩ := exists_assert (settings index) hrecord hq
    rw [List.cons_append]
    cases hverdict : attempt.verdict with
    | error rejection =>
      rw [assertAll_cons_of_rejected hassert hverdict, assertAll_cons_of_rejected hassert hverdict]
      refine ⟨attempt, attempt, rfl, rfl, fun hok => ?_, fun _ => rfl⟩
      rw [hverdict] at hok
      cases hok
    | ok =>
      rw [assertAll_cons_of_accepted hassert hverdict, assertAll_cons_of_accepted hassert hverdict]
      exact ih (ha.wellFormed hrecord hq) (index + 1) hps

end Progress

namespace Solver

variable {solver : Solver} {p : LinearForm} {ps : List LinearForm}

theorem knowledge_eq_solved_iff (hquiet : solver.Quiet) {v : Var} {c : Rat} :
    solver.knowledge v = .solved c ↔ solver.store.solved.get? v = some c := by
  rw [knowledge, hquiet.not_isRetired, if_neg Bool.false_ne_true, Store.knowledge]
  cases solver.store.solved.get? v with
  | some value => simp
  | none => cases solver.store.dependents.get? v <;> simp

end Solver

/-- The solutions of the store are those of the accepted equations. -/
structure Run.Exact (run : Run) : Prop where
  quiet : run.solver.Quiet
  wellFormed : run.solver.store.WellFormed
  satisfies_iff : ∀ s, run.solver.store.Satisfies s ↔ ∀ q ∈ run.accepted, q.eval s = 0

namespace Run

variable {run : Run} {p : LinearForm} {ps : List LinearForm} {setting : Setting}

theorem Exact.after (h : run.Exact) {call : Call} {outcome : Outcome}
    (hsetting : outcome.solver.toSetting = run.solver.toSetting)
    (hwf : outcome.solver.store.WellFormed)
    (hsat : ∀ s, outcome.solver.store.Satisfies s ↔ run.solver.store.Satisfies s ∧
      ∀ q ∈ call.accepted run.solver outcome, q.eval s = 0) : (run.after call outcome).Exact where
  quiet := by
    show outcome.solver.toSetting.Quiet
    rw [hsetting]
    exact h.quiet
  wellFormed := hwf
  satisfies_iff := fun s => by
    show outcome.solver.store.Satisfies s ↔ ∀ q ∈ run.accepted ++ _, q.eval s = 0
    rw [hsat, h.satisfies_iff, List.forall_mem_append]

theorem Exact.add (h : run.Exact) (hp : p.WellFormed) (hvalid : p.valid) :
    ∃ outcome, run.solver.add p = .ok outcome ∧ run.solver.store.Decides p outcome.verdict ∧
      (run.after (.add p) outcome).Exact := by
  have hprogress : run.solver.progress.store.WellFormed := h.wellFormed
  have hzero := h.quiet.threshold_eq_zero
  obtain ⟨attempt, hassert, ha⟩ := Progress.exists_assert run.solver.toSetting hprogress hp
  obtain ⟨outcome, hadd, hsolver, hverdict, -⟩ :=
    Solver.add_of_not_isRetired h.quiet.not_isRetired hassert
  have hdecides := ha.decides hprogress hp hvalid h.quiet.host_ne_none hzero
  refine ⟨outcome, hadd, hverdict ▸ hdecides, h.after ?_ ?_ fun s => ?_⟩ <;> rw [hsolver]
  · exact ha.wellFormed hprogress hp
  · rw [Call.accepted, hverdict]
    cases haccepted : attempt.verdict with
    | error rejection =>
      have hstore := ha.store_eq_of_error (by rw [haccepted]; exact fun h => by cases h)
      simp only [hstore, List.not_mem_nil, false_imp_iff, implies_true, and_true]
      rfl
    | ok =>
      simp only [ha.satisfies hprogress hp hzero haccepted, List.forall_mem_singleton]
      rfl

theorem Exact.addAll (h : run.Exact) (hps : ∀ q ∈ ps, q.WellFormed) :
    ∃ outcome, run.solver.addAll ps = .ok outcome ∧ (run.after (.addAll ps) outcome).Exact := by
  have hprogress : run.solver.progress.store.WellFormed := h.wellFormed
  obtain ⟨attempt, hassert, hwf, hsat⟩ := Progress.exists_assertAll hprogress 0 ps hps
  obtain ⟨outcome, hadd, hsolver, -⟩ :=
    Solver.addAll_of_not_isRetired h.quiet.not_isRetired hassert
  refine ⟨outcome, hadd, h.after ?_ ?_ fun s => ?_⟩ <;> rw [hsolver]
  · exact hwf
  · exact hsat (fun _ => h.quiet.threshold_eq_zero) s

theorem Exact.addAll_append (h : run.Exact) (hps : ∀ q ∈ ps, q.WellFormed) (hp : p.WellFormed)
    (hvalid : p.valid) :
    ∃ before after, run.solver.addAll ps = .ok before ∧
      run.solver.addAll (ps ++ [p]) = .ok after ∧
      (before.verdict = .ok () → before.solver.store.Decides p after.verdict) ∧
      (before.verdict ≠ .ok () → after.verdict = before.verdict) := by
  have hprogress : run.solver.progress.store.WellFormed := h.wellFormed
  obtain ⟨attempt, next, hattempt, hnext, hok, herror⟩ :=
    Progress.exists_assertAll_append hprogress (fun _ => h.quiet) 0 ps hps hp hvalid
  have hnone := h.quiet.not_isRetired
  obtain ⟨before, hbefore, hsolver, hverdict, -⟩ := Solver.addAll_of_not_isRetired hnone hattempt
  obtain ⟨after, hafter, -, hverdict', -⟩ := Solver.addAll_of_not_isRetired hnone hnext
  rw [← hverdict, ← hverdict'] at hok herror
  refine ⟨before, after, hbefore, hafter, ?_, herror⟩
  rw [hsolver]
  exact hok

theorem Exact.call (h : run.Exact) {call : Call} (hcall : call.Feeds) :
    ∃ run', run.call call = .ok run' ∧ run'.Exact := by
  match call, hcall with
  | .add p none, hcall =>
    obtain ⟨outcome, hadd, -, h'⟩ := h.add hcall.1 hcall.2
    exact ⟨_, call_eq_ok hadd, h'⟩
  | .addAll ps none none, hcall =>
    obtain ⟨outcome, hadd, h'⟩ := h.addAll fun q hq => (hcall q hq).1
    exact ⟨_, call_eq_ok hadd, h'⟩

theorem exact_start (hquiet : setting.Quiet) : (start setting).Exact where
  quiet := hquiet
  wellFormed := Store.wellFormed_empty
  satisfies_iff := fun _ => iff_of_true Store.satisfies_empty
    fun _ hq => absurd hq List.not_mem_nil

theorem exists_calls_of_feeds (hquiet : setting.Quiet) {calls : List Call}
    (hcalls : ∀ call ∈ calls, call.Feeds) :
    ∃ run, (start setting).calls calls = .ok run ∧ run.Exact :=
  exists_foldlM Exact Call.Feeds (fun _ _ h hcall => h.call hcall) calls _ hcalls
    (exact_start hquiet)

/-- Incremental elimination is sound and complete: it keeps exactly the solutions of the accepted
equations, and rejects exactly the equations that contradict them. -/
theorem decides_of_calls (hquiet : setting.Quiet) {calls : List Call}
    (hcalls : ∀ call ∈ calls, call.Feeds) :
    ∃ run, (start setting).calls calls = .ok run ∧
      (∀ s, run.solver.store.Satisfies s ↔ ∀ q ∈ run.accepted, q.eval s = 0) ∧
      (∀ p, p.WellFormed → p.valid → ∃ outcome, run.solver.add p = .ok outcome ∧
        run.solver.store.Decides p outcome.verdict) ∧
      ∀ ps p, (∀ q ∈ ps ++ [p], q.WellFormed ∧ q.valid) →
        ∃ before after, run.solver.addAll ps = .ok before ∧
          run.solver.addAll (ps ++ [p]) = .ok after ∧
          (before.verdict = .ok () → before.solver.store.Decides p after.verdict) ∧
          (before.verdict ≠ .ok () → after.verdict = before.verdict) := by
  obtain ⟨run, hrun, h⟩ := exists_calls_of_feeds hquiet hcalls
  refine ⟨run, hrun, h.satisfies_iff, fun p hp hvalid => ?_, fun ps p hps => ?_⟩
  · obtain ⟨outcome, hadd, hdecides, -⟩ := h.add hp hvalid
    exact ⟨outcome, hadd, hdecides⟩
  · obtain ⟨hps, hp⟩ := List.forall_mem_append.mp hps
    obtain ⟨hp, hvalid⟩ := List.forall_mem_singleton.mp hp
    exact h.addAll_append (fun q hq => (hps q hq).1) hp hvalid

/-- After `x₁ + x₂ = 3`, and a batch that ends when `x₁ + x₂ = 4` contradicts it. -/
theorem decides_of_calls_contradicting :
    ∃ run, (start .plain).calls [.add (.ofTerms (-3) [(1, 1), (2, 1)]),
        .addAll [.ofTerms 0 [(1, 2), (2, -1)], .ofTerms (-4) [(1, 1), (2, 1)],
          .ofTerms 0 [(3, 1), (1, -1)]]] = .ok run ∧
      (∀ s, run.solver.store.Satisfies s ↔ ∀ q ∈ run.accepted, q.eval s = 0) ∧
      (∃ outcome, run.solver.add (.ofTerms 7 [(1, 5)]) = .ok outcome ∧
        run.solver.store.Decides (.ofTerms 7 [(1, 5)]) outcome.verdict) ∧
      ∃ before after, run.solver.addAll [.ofTerms 0 [(3, 1), (1, -1)]] = .ok before ∧
        run.solver.addAll ([.ofTerms 0 [(3, 1), (1, -1)]] ++ [.ofTerms 1 [(3, 1)]]) = .ok after ∧
        (before.verdict = .ok () →
          before.solver.store.Decides (.ofTerms 1 [(3, 1)]) after.verdict) ∧
        (before.verdict ≠ .ok () → after.verdict = before.verdict) := by
  have hform (c : Rat) (terms : List (Var × Rat)) :
      (LinearForm.ofTerms c terms).WellFormed ∧ (LinearForm.ofTerms c terms).valid :=
    ⟨.ofTerms c terms, LinearForm.valid_ofTerms c terms⟩
  refine (decides_of_calls Setting.quiet_plain ?_).imp fun run h =>
    ⟨h.1, h.2.1, h.2.2.1 _ (hform ..).1 (hform ..).2, h.2.2.2 _ _ ?_⟩
  · simp [Call.Feeds, hform]
  · simp [hform]

/-- A variable is solved as soon as the accepted equations determine it, and the variables without a
rule are free. -/
theorem solved_iff_of_calls (hquiet : setting.Quiet) {calls : List Call}
    (hcalls : ∀ call ∈ calls, call.Feeds) :
    ∃ run, (start setting).calls calls = .ok run ∧
      (∀ v c, run.solver.knowledge v = .solved c ↔
        ∀ s, (∀ q ∈ run.accepted, q.eval s = 0) → s v = c) ∧
      ∀ f : Var → Rat, ∃! s, (∀ v, run.solver.isSolved v = false →
        run.solver.isDependent v = false → s v = f v) ∧ ∀ q ∈ run.accepted, q.eval s = 0 := by
  obtain ⟨run, hrun, h⟩ := exists_calls_of_feeds hquiet hcalls
  refine ⟨run, hrun, fun v c => ?_, fun f => ?_⟩
  · simp only [← h.satisfies_iff]
    rw [Solver.knowledge_eq_solved_iff h.quiet]
    exact Store.get?_solved_iff h.wellFormed
  · simp only [← h.satisfies_iff]
    have hfree (v : Var) : run.solver.store.knows v = false ↔
        run.solver.isSolved v = false ∧ run.solver.isDependent v = false :=
      Bool.or_eq_false_iff
    simpa only [hfree, and_imp] using Store.existsUnique_satisfies h.wellFormed f

theorem solved_iff_of_calls_three :
    ∃ run, (start .plain).calls [.add (.ofTerms (-3) [(1, 1), (2, 1)]),
        .add (.ofTerms 1 [(3, 2), (2, -1)]), .add (.ofTerms (-2) [(1, 1), (3, 4)])] = .ok run ∧
      (∀ v c, run.solver.knowledge v = .solved c ↔
        ∀ s, (∀ q ∈ run.accepted, q.eval s = 0) → s v = c) ∧
      ∀ f : Var → Rat, ∃! s, (∀ v, run.solver.isSolved v = false →
        run.solver.isDependent v = false → s v = f v) ∧ ∀ q ∈ run.accepted, q.eval s = 0 := by
  refine solved_iff_of_calls Setting.quiet_plain ?_
  simp [Call.Feeds, LinearForm.WellFormed.ofTerms, LinearForm.valid_ofTerms]

end Run

end SolvedForm
