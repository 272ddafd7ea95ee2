import SolvedForm.Proofs.Solver.Growth
import SolvedForm.Proofs.Solver.Atomicity

/-!
# Multiples of an equation

At the threshold zero an equation counts only up to what the store knows and up to a factor: if
`q` has `k` times the value of `p` at every solution of the store, then `q` reduces to `k` times
what `p` reduces to (`Store.expand_eq_scale`). A factor changes neither the pivot
(`Setting.pivot?_scale`) nor the form that is found for it (`LinearForm.isolate_scale`), so that
both equations make the same rule, or are off by residues with this factor (`Run.scales_of_calls`).
-/

namespace SolvedForm

variable {setting : Setting} {store : Store} {p q r : LinearForm} {v : Var} {k : Rat}

namespace LinearForm

theorem greaterTerm_scale (hk : k ≠ 0) (best : Option (Var × Rat)) (t : Var × Rat) :
    greaterTerm (best.map fun t => (t.1, t.2 * k)) (t.1, t.2 * k) =
      (greaterTerm best t).map fun t => (t.1, t.2 * k) := by
  cases best with
  | none => rfl
  | some b =>
    have hlt : (b.2 * k).abs < (t.2 * k).abs ↔ b.2.abs < t.2.abs := by
      simp only [Magnitude.abs_eq, abs_mul]
      exact mul_lt_mul_iff_left₀ (abs_pos.mpr hk)
    simp only [greaterTerm, Option.map_some, hlt]
    split <;> rfl

theorem foldl_greaterTerm_scale (hk : k ≠ 0) (best : Option (Var × Rat))
    (terms : List (Var × Rat)) :
    (terms.map fun t => (t.1, t.2 * k)).foldl greaterTerm (best.map fun t => (t.1, t.2 * k)) =
      (terms.foldl greaterTerm best).map fun t => (t.1, t.2 * k) := by
  rw [List.foldl_map]
  exact List.foldl_hom _ (greaterTerm_scale hk)

theorem toList_terms_scale (hk : k ≠ 0) (p : LinearForm) :
    (p.scale k).terms.toList = p.terms.toList.map fun t => (t.1, t.2 * k) := by
  rw [scale, if_neg hk]
  exact Table.toList_map (fun c => c * k) p.terms

theorem greatestTerm?_scale (hk : k ≠ 0) (p : LinearForm) (excluded : Var → Bool) :
    (p.scale k).greatestTerm? excluded =
      (p.greatestTerm? excluded).map fun t => (t.1, t.2 * k) := by
  rw [greatestTerm?, greatestTerm?, toList_terms_scale hk, List.filter_map]
  exact foldl_greaterTerm_scale hk none _

theorem value?_scale (hk : k ≠ 0) (p : LinearForm) :
    (p.scale k).value? = p.value?.map fun c => k * c := by
  have hconst : (p.scale k).isConstant = p.isConstant := by
    rw [Bool.eq_iff_iff, isConstant_iff, isConstant_iff, toList_terms_scale hk, List.map_eq_nil_iff]
  unfold value?
  rw [hconst, scale, if_neg hk]
  split
  · exact congrArg some (mul_comm ..)
  · rfl

theorem isolate_scale (hp : p.WellFormed) (hk : k ≠ 0) (hv : v ≠ Var.constant) :
    (p.scale k).isolate v = p.isolate v := by
  refine eq_of_coeff_eq ((hp.scale k).isolate hv) (hp.isolate hv) ?_ fun w => ?_
  · exact (valid_scale ..).trans ((valid_scale k p).trans (valid_scale _ (p.withCoeff v 0)).symm)
  · rw [coeff_isolate (hp.scale k) hv, coeff_isolate hp hv, coeff_scale hp, coeff_scale hp]
    split
    · rw [mul_zero, mul_zero]
    · rw [← mul_neg, mul_inv]
      field_simp

end LinearForm

theorem Setting.pivot?_scale (setting : Setting) (store : Store) (hk : k ≠ 0) (p : LinearForm) :
    setting.pivot? store (p.scale k) = (setting.pivot? store p).map fun t => (t.1, t.2 * k) := by
  rw [pivot?, pivot?, LinearForm.greatestTerm?_scale hk, LinearForm.greatestTerm?_scale hk,
    Option.map_or]

/-- Forms whose values are proportional at all solutions have proportional expansions. -/
theorem Store.expand_eq_scale (h : store.WellFormed) (hp : p.WellFormed) (hq : q.WellFormed)
    (hvalid : p.valid) (hvalid' : q.valid)
    (hsame : ∀ s, store.Satisfies s → q.eval s = k * p.eval s) (hr : store.expand p = .ok r) :
    store.expand q = .ok (r.scale k) := by
  have hexp := Expands.of_expand h hp hr
  obtain ⟨r', hr', hexp'⟩ := exists_expand h hq
  rw [hr']
  refine congrArg Except.ok (LinearForm.eq_of_coeff_eq hexp'.wellFormed (hexp.wellFormed.scale k)
    ?_ (LinearForm.coeff_eq_of_eval_eq hexp'.wellFormed (hexp.wellFormed.scale k) fun s => ?_))
  · rw [LinearForm.valid_scale, hexp.valid hvalid, hexp'.valid hvalid']
  · rw [hexp'.eval, hsame _ (satisfies_complete h s), LinearForm.eval_scale, hexp.eval]

/-- The reason for which `k` times an equation is not accepted, if the equation itself is not. -/
def Rejection.scale (k : Rat) : Rejection → Rejection
  | inconsistent residue => inconsistent (k * residue)
  | rejection => rejection

namespace Progress

variable {progress : Progress} {first : Attempt}

/-- The assertion of a multiple makes the same of the store and tells the host the same. -/
theorem Asserted.exists_scale (ha : Asserted setting progress p first)
    (h : progress.store.WellFormed) (hexact : setting.threshold = 0) (hp : p.WellFormed)
    (hq : q.WellFormed) (hvalid : p.valid) (hvalid' : q.valid) (hk : k ≠ 0)
    (hsame : ∀ s, progress.store.Satisfies s → q.eval s = k * p.eval s) :
    ∃ second, Asserted setting progress q second ∧ second.store = first.store ∧
      second.notifications = first.notifications ∧
      second.verdict = first.verdict.mapError (.scale k) := by
  have hexpand {r : LinearForm} (hr : progress.store.expand p = .ok r) :
      progress.store.expand q = .ok (r.scale k) :=
    Store.expand_eq_scale h hp hq hvalid hvalid' hsame hr
  have hrecord (progress : Progress) {event : Event} (he : event.notification? = none)
      (q : LinearForm) : ((progress.record (.asserted q)).record event).notifications =
        progress.notifications :=
    (notifications_record he).trans (notifications_record rfl)
  cases ha with
  | noHost host => exact ⟨_, .noHost host, rfl, rfl, rfl⟩
  | invalid _ invalid =>
    rw [hvalid] at invalid
    cases invalid
  | redundant host _ expand value =>
    rw [hexact, LinearForm.flush_zero] at value
    refine ⟨_, .redundant host hvalid' (hexpand expand) ?_, rfl, ?_, rfl⟩
    · rw [hexact, LinearForm.flush_zero, LinearForm.value?_scale hk, value, Option.map_some,
        mul_zero]
    · exact (hrecord progress rfl q).trans (hrecord progress rfl p).symm
  | inconsistent host _ expand ne_zero value =>
    rw [hexact, LinearForm.flush_zero] at value
    have hr := mul_ne_zero hk ne_zero
    refine ⟨_, .inconsistent host hvalid' (hexpand expand) hr ?_, rfl, ?_, rfl⟩
    · rw [hexact, LinearForm.flush_zero, LinearForm.value?_scale hk, value, Option.map_some]
    · exact (hrecord progress rfl q).trans (hrecord progress rfl p).symm
  | @solved host _ r expand v c pivot =>
    have hexp := Store.Expands.of_expand h hp expand
    rw [hexact, LinearForm.flush_zero] at pivot
    have hv := hexp.wellFormed.key_ne_constant _ (Setting.mem_of_pivot? pivot)
    -- the factor cancels as the equation is solved for its pivot
    have hrule : (((r.scale k).flush setting.threshold).isolate v).flush setting.threshold =
        ((r.flush setting.threshold).isolate v).flush setting.threshold := by
      simp only [hexact, LinearForm.flush_zero]
      exact LinearForm.isolate_scale hexp.wellFormed hk hv
    refine ⟨_, .solved host hvalid' (hexpand expand) (v := v) (c := c * k) ?_, ?_, ?_, rfl⟩
    · rw [hexact, LinearForm.flush_zero, Setting.pivot?_scale _ _ hk, pivot]
      rfl
    · show (withRule ..).store = (withRule ..).store
      rw [store_withRule, store_withRule, hrule]
      rfl
    · show (withRule ..).notifications = (withRule ..).notifications
      rw [notifications_withRule host, notifications_withRule host, hrule,
        notifications_record rfl, notifications_record rfl]
      rfl

end Progress

/-- How the calls that assert an equation and `k` times it compare. -/
inductive Solver.Scales (solver : Solver) (k : Rat) (first second : Outcome) : Prop where
  | accepted (first_verdict : first.verdict = .ok ()) (second_verdict : second.verdict = .ok ())
    (solver_eq : first.solver = second.solver)
    (notifications_eq : first.notifications = second.notifications)
  | inconsistent (r : Rat) (first_verdict : first.verdict = .error (.inconsistent r))
    (second_verdict : second.verdict = .error (.inconsistent (k * r)))
    (first_noEffect : first.HasNoEffect solver) (second_noEffect : second.HasNoEffect solver)
  /-- Without a host no equation is accepted. -/
  | noHost (host : solver.host = none) (first_verdict : first.verdict = .error .noHost)
    (second_verdict : second.verdict = .error .noHost)

namespace Solver

variable {solver : Solver}

theorem exists_add_scale (h : solver.store.WellFormed) (hexact : solver.threshold = 0)
    (hp : p.WellFormed) (hq : q.WellFormed) (hvalid : p.valid) (hvalid' : q.valid) (hk : k ≠ 0)
    (hsame : ∀ s, solver.store.Satisfies s → q.eval s = k * p.eval s) :
    ∃ first second, solver.add p = .ok first ∧ solver.add q = .ok second ∧
      solver.Scales k first second := by
  have hprogress : solver.progress.store.WellFormed := h
  obtain ⟨attempt, hassert, ha⟩ := Progress.exists_assert solver.toSetting hprogress hp
  obtain ⟨attempt', ha', hstore, hnotes, hverdict⟩ :=
    ha.exists_scale hprogress hexact hp hq hvalid hvalid' hk hsame
  have hassert' := ha'.assert_eq hprogress hq
  obtain ⟨first, hfirst, hnone⟩ := exists_add_hasNoEffect h hp
  obtain ⟨second, hsecond, hnone'⟩ := exists_add_hasNoEffect h hq
  -- what retires after an accepted equation depends on the store alone
  have haccepted (hok : attempt.verdict = .ok ()) : solver.Scales k first second := by
    rw [hok] at hverdict
    obtain ⟨last, last', hlast, hlast', hstore', hnotes'⟩ :=
      Progress.exists_finish_eq solver.toSetting (ha.wellFormed hprogress hp) hstore hnotes
    cases hfirst.symm.trans (add_of_accepted hassert hok hlast)
    cases hsecond.symm.trans (add_of_accepted hassert' hverdict hlast')
    exact .accepted rfl rfl (congrArg (Solver.mk solver.toSetting) hstore'.symm) hnotes'.symm
  refine ⟨first, second, hfirst, hsecond, ?_⟩
  cases ha with
  | redundant | solved => exact haccepted rfl
  | noHost host =>
    cases hfirst.symm.trans (add_of_rejected hassert rfl)
    cases hsecond.symm.trans (add_of_rejected hassert' hverdict)
    exact .noHost host rfl hverdict
  | invalid _ invalid =>
    rw [hvalid] at invalid
    cases invalid
  | @inconsistent _ _ _ _ r =>
    cases hfirst.symm.trans (add_of_rejected hassert rfl)
    cases hsecond.symm.trans (add_of_rejected hassert' hverdict)
    exact .inconsistent r rfl hverdict (hnone _ rfl) (hnone' _ hverdict)

end Solver

namespace Run

/-- Whatever is reported as retired, an exact solver does the same for two equations of which one is
a multiple of the other at all its solutions. -/
theorem scales_of_calls (setting : Setting) {calls : List Call}
    (hcalls : ∀ call ∈ calls, call.WellFormed) :
    ∃ run, (start setting).calls calls = .ok run ∧ (run.solver.threshold = 0 →
      ∀ (p q : LinearForm) (k : Rat), p.WellFormed → q.WellFormed → p.valid → q.valid → k ≠ 0 →
        (∀ s, run.solver.store.Satisfies s → (q - p.scale k).eval s = 0) →
        ∃ first second, run.solver.add p = .ok first ∧ run.solver.add q = .ok second ∧
          run.solver.Scales k first second) := by
  obtain ⟨run, hrun, h⟩ := exists_calls (start setting) Store.wellFormed_empty hcalls
  refine ⟨run, hrun, fun hexact p q k hp hq hvalid hvalid' hk hsame => ?_⟩
  refine Solver.exists_add_scale h hexact hp hq hvalid hvalid' hk fun s hs => ?_
  have hzero := hsame s hs
  rw [LinearForm.eval_sub, LinearForm.eval_scale] at hzero
  exact sub_eq_zero.mp hzero

/-- With `x₁ = x₂ + x₃` and `x₆ = 2` an equation that makes the retired `x₄` leave, and one that is
off by three, with multiples of them in which other variables occur. -/
theorem scales_of_calls_retiring :
    ∃ run, (start {}).calls [.attach { nameOf := Var.genericName, isRetired := fun v => v == 4 },
        .setThreshold 0, .addAll [.ofTerms 0 [(1, 1), (2, -1), (3, -1)], .ofTerms (-2) [(6, 1)]]] =
          .ok run ∧
      (∃ first second, run.solver.add (.ofTerms 1 [(2, 3), (4, -7)]) = .ok first ∧
        run.solver.add (.ofTerms (-8) [(1, 5), (2, -11), (3, -5), (4, 14), (6, 3)]) = .ok second ∧
        run.solver.Scales (-2) first second ∧ first.verdict = .ok ()) ∧
      ∃ first second, run.solver.add (.ofTerms (-5) [(6, 1)]) = .ok first ∧
        run.solver.add (.ofTerms (-5 / 3) [(6, 1 / 3), (1, 1), (2, -1), (3, -1)]) = .ok second ∧
        run.solver.Scales (1 / 3) first second ∧
        first.verdict = .error (.inconsistent (-3)) := by
  refine (scales_of_calls {} ?_).imp fun run h => ⟨h.1, ?_⟩
  · simp [Call.WellFormed, LinearForm.WellFormed.ofTerms]
  obtain ⟨hrun, hscales⟩ := h
  have hstore := apply_eq_of_map_eq_ok
    (b := (0, [(1, LinearForm.ofTerms 0 [(2, 1), (3, 1)])], [(6, (2 : Rat))]))
    (f := fun run : Run => (run.solver.threshold, run.solver.store.dependents.toList,
      run.solver.store.solved.toList)) hrun (by decide +kernel)
  have hverdicts := apply_eq_of_map_eq_ok (b := (.ok (.ok ()), .ok (.error (.inconsistent (-3)))))
    (f := fun run : Run => ((run.solver.add (.ofTerms 1 [(2, 3), (4, -7)])).map Outcome.verdict,
      (run.solver.add (.ofTerms (-5) [(6, 1)])).map Outcome.verdict)) hrun (by decide +kernel)
  simp only [Prod.mk.injEq] at hstore hverdicts
  obtain ⟨hexact, hdependents, hsolved⟩ := hstore
  have hrules {s : Var → Rat} (hs : run.solver.store.Satisfies s) :
      s 1 = s 2 + s 3 ∧ s 6 = 2 := by
    have hsum := hs.1 (1, .ofTerms 0 [(2, 1), (3, 1)]) (by rw [hdependents]; exact .head _)
    have hvalue := hs.2 (6, 2) (by rw [hsolved]; exact .head _)
    rw [LinearForm.eval_ofTerms] at hsum
    exact ⟨by simpa [LinearForm.termSum, Var.constant] using hsum, hvalue⟩
  obtain ⟨first, second, hfirst, hsecond, hcompare⟩ := hscales hexact
    (.ofTerms 1 [(2, 3), (4, -7)]) (.ofTerms (-8) [(1, 5), (2, -11), (3, -5), (4, 14), (6, 3)])
    (-2) (.ofTerms ..) (.ofTerms ..) (LinearForm.valid_ofTerms ..) (LinearForm.valid_ofTerms ..)
    (by norm_num) fun s hs => by
      obtain ⟨hsum, hvalue⟩ := hrules hs
      rw [LinearForm.eval_sub, LinearForm.eval_scale, LinearForm.eval_ofTerms,
        LinearForm.eval_ofTerms]
      simp [LinearForm.termSum, Var.constant, hsum, hvalue]
      ring
  obtain ⟨first', second', hfirst', hsecond', hcompare'⟩ := hscales hexact
    (.ofTerms (-5) [(6, 1)]) (.ofTerms (-5 / 3) [(6, 1 / 3), (1, 1), (2, -1), (3, -1)])
    (1 / 3) (.ofTerms ..) (.ofTerms ..) (LinearForm.valid_ofTerms ..) (LinearForm.valid_ofTerms ..)
    (by norm_num) fun s hs => by
      obtain ⟨hsum, hvalue⟩ := hrules hs
      rw [LinearForm.eval_sub, LinearForm.eval_scale, LinearForm.eval_ofTerms,
        LinearForm.eval_ofTerms]
      simp [LinearForm.termSum, Var.constant, hsum, hvalue]
      ring
  rw [hfirst, hfirst'] at hverdicts
  exact ⟨⟨first, second, hfirst, hsecond, hcompare, Except.ok.inj hverdicts.1⟩,
    first', second', hfirst', hsecond', hcompare', Except.ok.inj hverdicts.2⟩

end Run

end SolvedForm
