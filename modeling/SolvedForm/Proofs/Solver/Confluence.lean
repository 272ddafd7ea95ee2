import SolvedForm.Proofs.Solver.Exactness
import SolvedForm.Proofs.Store.Equivalence

/-!
# The order of the equations

In a quiet setting a run accepts all equations of a consistent system, however they are ordered and
put into batches (`Exact.calls_consistent`). The store it ends with has the solutions of the system,
so two runs with equivalent systems end with the same values and equally many dependencies
(`solved_eq_of_equivalent`), though not with the same dependencies.
-/

namespace SolvedForm

/-- The equations of a call, in the order in which they are asserted. -/
def Call.equations : Call → List LinearForm
  | add p _ => [p]
  | addAll ps _ _ => ps
  | _ => []

namespace Progress

variable {settings : Nat → Setting} {progress : Progress} {s : Var → Rat}

theorem accepted_eq_self (h : progress.store.WellFormed) (hquiet : ∀ i, (settings i).Quiet)
    (hs : progress.store.Satisfies s) (index : Nat) (ps : List LinearForm)
    (hps : ∀ p ∈ ps, p.WellFormed ∧ p.valid) (hzero : ∀ p ∈ ps, p.eval s = 0) :
    progress.accepted settings index ps = ps := by
  induction ps generalizing progress index with
  | nil => rfl
  | cons p ps ih =>
    obtain ⟨⟨hp, hvalid⟩, hps⟩ := List.forall_mem_cons.mp hps
    obtain ⟨hpzero, hzero⟩ := List.forall_mem_cons.mp hzero
    have hrecord : (progress.record (.fromBatch index)).store.WellFormed := h
    have hexact := (hquiet index).threshold_eq_zero
    obtain ⟨attempt, hassert, ha⟩ := exists_assert (settings index) hrecord hp
    have hdecides := ha.decides hrecord hp hvalid (hquiet index).host_ne_none hexact
    have hverdict : attempt.verdict = .ok () := by
      by_contra hn
      exact hdecides.rejected_iff.mp hn s hs hpzero
    have hs' : attempt.store.Satisfies s :=
      (ha.satisfies hrecord hp hexact hverdict).mpr ⟨hs, hpzero⟩
    rw [accepted, hassert]
    simp only [hverdict]
    rw [ih (ha.wellFormed hrecord hp) hs' (index + 1) hps hzero]

end Progress

namespace Run

variable {run : Run} {s : Var → Rat}

theorem Exact.call_consistent (h : run.Exact) {call : Call} (hcall : call.Feeds)
    (hs : ∀ p ∈ run.accepted, p.eval s = 0) (hzero : ∀ p ∈ call.equations, p.eval s = 0) :
    ∃ run', run.call call = .ok run' ∧ run'.Exact ∧
      run'.accepted = run.accepted ++ call.equations := by
  have hs := (h.satisfies_iff s).mpr hs
  match call, hcall with
  | .add p none, hcall =>
    obtain ⟨outcome, hadd, hdecides, h'⟩ := h.add hcall.1 hcall.2
    have hverdict : outcome.verdict = .ok () := by
      by_contra hn
      exact hdecides.rejected_iff.mp hn s hs (hzero p (List.mem_singleton_self p))
    refine ⟨_, call_eq_ok hadd, h', ?_⟩
    rw [Run.after, Call.accepted, hverdict]
    rfl
  | .addAll ps none none, hcall =>
    obtain ⟨outcome, hadd, h'⟩ := h.addAll fun p hp => (hcall p hp).1
    have hprogress : run.solver.progress.store.WellFormed := h.wellFormed
    have hquiet (i : Nat) : (run.solver.atEquation none i).Quiet := h.quiet
    refine ⟨_, call_eq_ok hadd, h', ?_⟩
    rw [Run.after, Call.accepted, Progress.accepted_eq_self hprogress hquiet hs 0 ps hcall hzero]
    rfl

theorem Exact.calls_consistent (h : run.Exact) {calls : List Call}
    (hcalls : ∀ call ∈ calls, call.Feeds) (hs : ∀ p ∈ run.accepted, p.eval s = 0)
    (hzero : ∀ p ∈ calls.flatMap Call.equations, p.eval s = 0) :
    ∃ run', run.calls calls = .ok run' ∧ run'.Exact ∧
      run'.accepted = run.accepted ++ calls.flatMap Call.equations := by
  induction calls generalizing run with
  | nil => exact ⟨run, rfl, h, (List.append_nil _).symm⟩
  | cons call calls ih =>
    obtain ⟨hcall, hcalls⟩ := List.forall_mem_cons.mp hcalls
    rw [List.flatMap_cons, List.forall_mem_append] at hzero
    obtain ⟨next, hnext, hexact, haccepted⟩ := h.call_consistent hcall hs hzero.1
    have hs : ∀ p ∈ next.accepted, p.eval s = 0 := by
      rw [haccepted, List.forall_mem_append]
      exact ⟨hs, hzero.1⟩
    obtain ⟨last, hlast, hexact, haccepted'⟩ := ih hexact hcalls hs hzero.2
    refine ⟨last, ?_, hexact, ?_⟩
    · rw [Run.calls, List.foldlM_cons, hnext]
      exact hlast
    · rw [haccepted', haccepted, List.append_assoc, List.flatMap_cons]

/-- What a run of equations ends with depends on their common zeros only: neither on their order and
form nor on how they are put into batches. -/
theorem solved_eq_of_equivalent {setting₁ setting₂ : Setting} (hquiet₁ : setting₁.Quiet)
    (hquiet₂ : setting₂.Quiet) {calls₁ calls₂ : List Call}
    (hcalls₁ : ∀ call ∈ calls₁, call.Feeds) (hcalls₂ : ∀ call ∈ calls₂, call.Feeds)
    (hzeros : ∀ s, (∀ p ∈ calls₁.flatMap Call.equations, p.eval s = 0) ↔
      ∀ p ∈ calls₂.flatMap Call.equations, p.eval s = 0)
    (hconsistent : ∃ s, ∀ p ∈ calls₁.flatMap Call.equations, p.eval s = 0) :
    ∃ run₁ run₂, (start setting₁).calls calls₁ = .ok run₁ ∧
      (start setting₂).calls calls₂ = .ok run₂ ∧
      run₁.accepted = calls₁.flatMap Call.equations ∧
      run₂.accepted = calls₂.flatMap Call.equations ∧
      run₁.solver.store.solved = run₂.solver.store.solved ∧
      run₁.solver.store.dependents.size = run₂.solver.store.dependents.size := by
  obtain ⟨s, hs⟩ := hconsistent
  have hnone (p : LinearForm) (hp : p ∈ ([] : List LinearForm)) : p.eval s = 0 :=
    absurd hp List.not_mem_nil
  obtain ⟨run₁, hrun₁, hexact₁, haccepted₁⟩ :=
    (exact_start hquiet₁).calls_consistent hcalls₁ hnone hs
  obtain ⟨run₂, hrun₂, hexact₂, haccepted₂⟩ :=
    (exact_start hquiet₂).calls_consistent hcalls₂ hnone ((hzeros s).mp hs)
  have hsat (s : Var → Rat) :
      run₁.solver.store.Satisfies s ↔ run₂.solver.store.Satisfies s := by
    rw [hexact₁.satisfies_iff, hexact₂.satisfies_iff, haccepted₁, haccepted₂]
    exact hzeros s
  exact ⟨run₁, run₂, hrun₁, hrun₂, haccepted₁, haccepted₂,
    Store.solved_eq_of_satisfies_iff hexact₁.wellFormed hexact₂.wellFormed hsat,
    Store.size_dependents_eq_of_satisfies_iff hexact₁.wellFormed hexact₂.wellFormed hsat⟩

theorem solved_eq_of_equivalent_batch :
    ∃ run₁ run₂, (start .plain).calls [.add (.ofTerms (-3) [(1, 1), (2, 1)]),
        .add (.ofTerms (-1) [(1, 1), (2, -1)]), .add (.ofTerms 0 [(3, 1), (4, -2), (1, -1)])] =
          .ok run₁ ∧
      (start .plain).calls [.addAll [.ofTerms 2 [(4, 2), (3, -1)], .ofTerms (-4) [(2, 4)],
        .ofTerms (-6) [(1, 2), (2, 2)]], .add (.ofTerms (-4) [(2, 4)])] = .ok run₂ ∧
      run₁.accepted = [.ofTerms (-3) [(1, 1), (2, 1)], .ofTerms (-1) [(1, 1), (2, -1)],
        .ofTerms 0 [(3, 1), (4, -2), (1, -1)]] ∧
      run₂.accepted = [.ofTerms 2 [(4, 2), (3, -1)], .ofTerms (-4) [(2, 4)],
        .ofTerms (-6) [(1, 2), (2, 2)], .ofTerms (-4) [(2, 4)]] ∧
      run₁.solver.store.solved = run₂.solver.store.solved ∧
      run₁.solver.store.dependents.size = run₂.solver.store.dependents.size := by
  refine solved_eq_of_equivalent Setting.quiet_plain Setting.quiet_plain ?_ ?_ (fun s => ?_)
    ⟨fun v => if v = 1 then 2 else if v = 2 then 1 else if v = 3 then 2 else 0, ?_⟩
  · simp [Call.Feeds, LinearForm.WellFormed.ofTerms, LinearForm.valid_ofTerms]
  · simp [Call.Feeds, LinearForm.WellFormed.ofTerms, LinearForm.valid_ofTerms]
  · simp only [List.flatMap_cons, Call.equations, List.flatMap_nil, List.append_nil,
      List.cons_append, List.nil_append, List.mem_cons, List.not_mem_nil, or_false,
      forall_eq_or_imp, forall_eq, LinearForm.eval_ofTerms, LinearForm.termSum, List.map_cons,
      List.map_nil, List.sum_cons, List.sum_nil, Var.constant, one_ne_zero, OfNat.ofNat_ne_zero,
      ↓reduceIte]
    constructor
    · rintro ⟨h₁, h₂, h₃⟩
      refine ⟨?_, ?_, ?_, ?_⟩ <;> linarith
    · rintro ⟨h₁, h₂, h₃, -⟩
      refine ⟨?_, ?_, ?_⟩ <;> linarith
  · norm_num [Call.equations, LinearForm.eval_ofTerms, LinearForm.termSum, Var.constant]

end Run

end SolvedForm
