import SolvedForm.Proofs.Solver.Purging

/-!
# No residue is stored

`store.Significant eps`: of what the store holds only zeros are near zero, and no coefficient of a
variable is. All that changes a right-hand side flushes it (`LinearForm.Significant.inline`), what a
sweep turns into a solution included (`Store.Significant.inline`). So every call keeps the store
significant for the threshold in force, as long as this is not raised (`Run.significant_of_calls`).
-/

namespace SolvedForm

variable {setting : Setting} {store : Store} {p rhs value : LinearForm} {known v : Var}
  {c eps eps' : Rat}

namespace Magnitude

/-- The value is zero, or far enough from it to be kept. -/
def Significant (eps a : Rat) : Prop :=
  a = 0 ∨ eps ≤ a.abs

theorem Significant.mono {a : Rat} (h : Significant eps a) (hle : eps' ≤ eps) :
    Significant eps' a :=
  h.imp_right hle.trans

theorem significant_flush (eps a : Rat) : Significant eps (flush eps a) := by
  unfold flush
  split
  · exact .inl rfl
  · rename_i hfar
    exact .inr (not_lt.mp hfar)

end Magnitude

namespace LinearForm

/-- A coefficient is stored only if it is not zero, so it has to be far from zero. -/
structure Significant (eps : Rat) (p : LinearForm) : Prop where
  constant : Magnitude.Significant eps p.constant
  coeff : ∀ t ∈ p.terms.toList, eps ≤ t.2.abs

theorem Significant.mono (h : p.Significant eps) (hle : eps' ≤ eps) : p.Significant eps' :=
  ⟨h.constant.mono hle, fun t ht => hle.trans (h.coeff t ht)⟩

theorem significant_flush (eps : Rat) (p : LinearForm) : (p.flush eps).Significant eps :=
  ⟨Magnitude.significant_flush eps p.constant, fun _ ht => not_lt.mp (mem_terms_flush.mp ht).2⟩

theorem Significant.inline (h : rhs.Significant eps) :
    (rhs.inline eps known value).Significant eps := by
  unfold LinearForm.inline
  split
  · exact significant_flush eps _
  · exact h

end LinearForm

namespace Store

structure Significant (eps : Rat) (store : Store) : Prop where
  rhs : ∀ row ∈ store.dependents.toList, row.2.Significant eps
  value : ∀ row ∈ store.solved.toList, Magnitude.Significant eps row.2

theorem significant_empty (eps : Rat) : ({} : Store).Significant eps :=
  ⟨fun _ hrow => absurd hrow List.not_mem_nil, fun _ hrow => absurd hrow List.not_mem_nil⟩

namespace Significant

theorem mono (h : store.Significant eps) (hle : eps' ≤ eps) : store.Significant eps' :=
  ⟨fun row hrow => (h.rhs row hrow).mono hle, fun row hrow => (h.value row hrow).mono hle⟩

theorem setSolved (h : store.Significant eps) (hs : store.solved.Sorted)
    (hc : Magnitude.Significant eps c) : (store.setSolved v c).Significant eps := by
  refine ⟨h.rhs, fun row hrow => ?_⟩
  rcases (Table.mem_toList_insert hs).mp hrow with rfl | ⟨hrow, -⟩
  · exact hc
  · exact h.value row hrow

theorem setDependent (h : store.Significant eps) (hd : store.dependents.Sorted)
    (hrhs : rhs.Significant eps) : (store.setDependent v rhs).Significant eps := by
  refine ⟨fun row hrow => ?_, h.value⟩
  rcases (Table.mem_toList_insert hd).mp hrow with rfl | ⟨hrow, -⟩
  · exact hrhs
  · exact h.rhs row hrow

theorem inline (h : store.Significant eps) (hbut : store.WellFormedBut known) :
    (store.inline eps known value).Significant eps := by
  refine ⟨fun row hrow => ?_, fun row hrow => ?_⟩
  · obtain ⟨rhs, hmem, heq, -⟩ := mem_dependents_inline.mp hrow
    rw [heq]
    exact (h.rhs _ hmem).inline
  · rcases hbut.mem_solved_inline.mp hrow with ⟨rhs, hmem, -, heq⟩ | hmem
    · rw [heq]
      exact (h.rhs _ hmem).inline.constant
    · exact h.value row hmem

theorem addRule (h : store.Significant eps) (hwf : store.WellFormed) (hrhs : store.Admits v rhs)
    (hfree : store.knows v = false) (hsig : rhs.Significant eps) :
    (store.addRule eps v rhs).Significant eps := by
  unfold Store.addRule
  split
  · rename_i c hc
    obtain ⟨-, rfl⟩ := LinearForm.value?_eq_some_iff.mp hc
    exact (h.setSolved hwf.solved_sorted hsig.constant).inline
      (hwf.setSolved hrhs.ne_constant hfree rhs.constant)
  · have hbut := hwf.but (contains_dependents_of_not_knows hfree)
    exact (h.inline hbut).setDependent hbut.sorted_dependents_inline hsig

theorem release (h : store.Significant eps) (hd : store.dependents.Sorted) (v : Var) :
    (store.release v).Significant eps :=
  ⟨fun row hrow => h.rhs row ((Table.mem_toList_erase hd).mp hrow).1, h.value⟩

theorem forget (h : store.Significant eps) (hwf : store.WellFormed) (v : Var) :
    (store.forget v).Significant eps :=
  ⟨fun row hrow => h.rhs row ((Table.mem_toList_erase hwf.dependents_sorted).mp hrow).1,
    fun row hrow => h.value row ((Table.mem_toList_erase hwf.solved_sorted).mp hrow).1⟩

/-- The form through which a variable is eliminated is not flushed, but what it is put into is. -/
theorem retire (h : store.Significant eps) (hwf : store.WellFormed) (v : Var) :
    (store.retire eps v).Significant eps := by
  unfold Store.retire
  split
  · exact h.forget hwf v
  · rename_i hholder
    have hforget := hwf.forget v
    obtain ⟨hbut, -⟩ := Admits.invert hforget (not_knows_forget hwf v) hholder
    exact ((h.forget hwf v).release hforget.dependents_sorted _).inline hbut

theorem retireAll (h : store.Significant eps) (hwf : store.WellFormed) (vs : List Var) :
    (store.retireAll eps vs).Significant eps := by
  induction vs generalizing store with
  | nil => exact h
  | cons v vs ih => exact ih (h.retire hwf v) (hwf.retire eps v)

theorem purge (h : store.Significant eps) (hwf : store.WellFormed)
    (hsetting : setting.threshold = eps) : (store.purge setting).Significant eps := by
  rw [Store.purge, hsetting]
  exact h.retireAll hwf _

end Significant

end Store

/-! ### Calls keep the store significant -/

namespace Progress

variable {settings : Nat → Setting} {progress : Progress} {attempt : Attempt}

theorem Asserted.significant (ha : Asserted setting progress p attempt)
    (h : progress.store.Significant setting.threshold) (hwf : progress.store.WellFormed)
    (hp : p.WellFormed) : attempt.store.Significant setting.threshold := by
  cases ha with
  | noHost | invalid | redundant | inconsistent => exact h
  | solved host valid expand pivot =>
    obtain ⟨-, hfree, hadmits⟩ := Store.admits_of_pivot? hwf hp valid expand pivot
    show (Progress.withRule ..).store.Significant setting.threshold
    rw [store_withRule]
    exact Store.Significant.addRule h hwf hadmits hfree (LinearForm.significant_flush ..)

theorem significant_assertAll (hsettings : ∀ i, (settings i).threshold = eps)
    (h : progress.store.Significant eps)
    (hwf : progress.store.WellFormed) {ps : List LinearForm} (hps : ∀ p ∈ ps, p.WellFormed)
    {index : Nat} (hassert : progress.assertAll settings index ps = .ok attempt) :
    attempt.store.Significant eps :=
  assertAll_invariant (P := fun progress => progress.store.Significant eps)
    (fun h hwf hp ha => hsettings _ ▸ ha.significant (hsettings _ ▸ h) hwf hp) h hwf hps hassert

end Progress

namespace Solver

variable {solver : Solver} {outcome : Outcome} {settings : Nat → Setting} {later : Setting}

/-- Nothing that the solver holds is a residue. -/
def Significant (solver : Solver) : Prop :=
  solver.store.Significant solver.threshold

theorem Significant.add (h : solver.Significant) (hwf : solver.store.WellFormed)
    (hp : p.WellFormed) (hlater : later.threshold = solver.threshold)
    (hadd : solver.add p later = .ok outcome) : outcome.solver.Significant := by
  have hprogress : solver.progress.store.WellFormed := hwf
  have hsig {attempt : Attempt}
      (ha : Progress.Asserted solver.toSetting solver.progress p attempt) :
      attempt.store.Significant solver.threshold := ha.significant h hprogress hp
  cases added_of_add hwf hp hadd with
  | rejected ha _ outcome_eq =>
    subst outcome
    exact hsig ha
  | accepted ha _ _ solver_eq =>
    rw [solver_eq]
    exact (hsig ha).purge (ha.wellFormed hprogress hp) hlater

theorem Significant.addAll (h : solver.Significant) (hwf : solver.store.WellFormed)
    {ps : List LinearForm} (hps : ∀ p ∈ ps, p.WellFormed)
    (hsettings : ∀ i, (settings i).threshold = solver.threshold)
    (hlater : later.threshold = solver.threshold)
    (hadd : solver.addAll ps settings later = .ok outcome) : outcome.solver.Significant := by
  have hprogress : solver.progress.store.WellFormed := hwf
  have hsig : solver.progress.store.Significant solver.threshold := h
  obtain ⟨attempt, hassert, hwf', -⟩ := Progress.exists_assertAll hprogress 0 ps hps
  obtain ⟨outcome', hadd', -, hsolver⟩ := exists_addAll_purge hwf' hassert
  cases hadd.symm.trans hadd'
  rw [hsolver]
  exact (Progress.significant_assertAll hsettings hsig hprogress hps hassert).purge hwf' hlater

theorem Significant.retire (h : solver.Significant) (hwf : solver.store.WellFormed)
    (hretire : solver.retire v = .ok outcome) : outcome.solver.Significant := by
  rw [eq_of_retire hwf hretire]
  exact Store.Significant.retire h hwf v

theorem Significant.retireReported (h : solver.Significant) (hwf : solver.store.WellFormed)
    (hretire : solver.retireReported = .ok outcome) : outcome.solver.Significant := by
  obtain ⟨outcome', hretire', hsolver⟩ := exists_retireReported_purge hwf
  cases hretire.symm.trans hretire'
  rw [hsolver]
  exact Store.Significant.purge h hwf rfl

end Solver

theorem Call.significant_outcome {solver : Solver} (h : solver.Significant)
    (hwf : solver.store.WellFormed) {call : Call} (hcall : call.WellFormed)
    (hle : (call.settingAfter solver.toSetting).threshold ≤ solver.threshold) {outcome : Outcome}
    (houtcome : call.outcome solver = .ok outcome) : outcome.solver.Significant := by
  cases call with
  | add p later => exact h.add hwf hcall (Setting.threshold_afterReport later) houtcome
  | addAll ps reports later =>
    exact h.addAll hwf hcall (fun _ => Setting.threshold_afterReport _)
      (Setting.threshold_afterReport later) houtcome
  | retire v => exact h.retire hwf houtcome
  | retireReported => exact h.retireReported hwf houtcome
  | setThreshold eps =>
    cases houtcome
    exact h.mono hle
  | attach | report =>
    cases houtcome
    exact h

/-- No call of the list sets the threshold to more than it is then. -/
def Setting.NeverRaised (setting : Setting) : List Call → Prop
  | [] => True
  | call :: calls =>
    (call.settingAfter setting).threshold ≤ setting.threshold ∧
      (call.settingAfter setting).NeverRaised calls

namespace Run

variable {run : Run} {calls : List Call}

theorem exists_calls_significant (h : run.solver.Significant) (hwf : run.solver.store.WellFormed)
    (hcalls : ∀ call ∈ calls, call.WellFormed)
    (hlowered : run.solver.toSetting.NeverRaised calls) :
    ∃ run', run.calls calls = .ok run' ∧ run'.solver.Significant := by
  induction calls generalizing run with
  | nil => exact ⟨run, rfl, h⟩
  | cons call calls ih =>
    obtain ⟨hcall, hcalls⟩ := List.forall_mem_cons.mp hcalls
    obtain ⟨hle, hlowered⟩ := hlowered
    obtain ⟨outcome, houtcome, hwf', -⟩ := Call.exists_outcome hwf hcall
    have hsig : (run.after call outcome).solver.Significant :=
      Call.significant_outcome h hwf hcall hle houtcome
    rw [← Call.toSetting_outcome hwf hcall houtcome] at hlowered
    obtain ⟨run', hrun', hsig'⟩ := ih hsig hwf' hcalls hlowered
    refine ⟨run', ?_, hsig'⟩
    rw [Run.calls, List.foldlM_cons, call_eq_ok houtcome]
    exact hrun'

/-- As long as the threshold is not raised, no coefficient that is stored is below it in size, nor
is any constant or value other than zero. -/
theorem significant_of_calls (setting : Setting) (hcalls : ∀ call ∈ calls, call.WellFormed)
    (hlowered : setting.NeverRaised calls) :
    ∃ run, (start setting).calls calls = .ok run ∧
      run.solver.store.Significant run.solver.threshold :=
  exists_calls_significant (Store.significant_empty _) Store.wellFormed_empty hcalls hlowered

/-- `x₂` is flushed out of the right-hand side of `x₁` after the division, while with the lower
threshold the same coefficient of `x₄` is kept. -/
theorem significant_of_calls_lowering :
    ∃ run, (start { host := some { nameOf := Var.genericName }, threshold := 1 / 10 }).calls
        [.add (.ofTerms 1 [(1, 10), (2, 1 / 2), (3, 5)]), .setThreshold (1 / 100),
          .add (.ofTerms 0 [(3, 1), (4, -1 / 10)])] = .ok run ∧
      run.solver.store.Significant run.solver.threshold ∧
      run.solver.store.dependents.toList =
        [(1, .ofTerms (-1 / 10) [(4, -1 / 20)]), (3, .ofTerms 0 [(4, 1 / 10)])] := by
  refine (significant_of_calls _ ?_ ?_).imp fun run h => ⟨h.1, h.2, ?_⟩
  · simp [Call.WellFormed, LinearForm.WellFormed.ofTerms]
  · norm_num [Setting.NeverRaised, Call.settingAfter]
  exact apply_eq_of_map_eq_ok (f := fun run : Run => run.solver.store.dependents.toList) h.1
    (by decide +kernel)

end Run

end SolvedForm
