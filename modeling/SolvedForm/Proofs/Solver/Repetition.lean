import SolvedForm.Proofs.LinearForm.Flushing
import SolvedForm.Proofs.Solver.Notification

/-!
# Asserting an equation again

An accepted equation `0 = p` was flushed once as it was reduced, and the rule that it became once
more after the division by the pivot. Only the second flush is felt when the equation is asserted
again: as long as the substitution of the rule leaves nothing to be flushed, the repetition changes
nothing exactly if the division did not either (`Run.changesNothing_iff_of_calls`). A term that the
division loses comes back in its size before the division, which is too great to be flushed.
-/

namespace SolvedForm

variable {setting : Setting} {store : Store} {p q r rhs : LinearForm} {v w : Var} {c eps : Rat}
  {s : Var → Rat}

namespace Store

/-- No right-hand side into which `v = rhs` is substituted has anything to be flushed. -/
def InlinesExactly (store : Store) (eps : Rat) (v : Var) (rhs : LinearForm) : Prop :=
  ∀ row ∈ store.dependents.toList, row.2.mentions v →
    (row.2.replace v rhs).flush eps = row.2.replace v rhs

instance (store : Store) (eps : Rat) (v : Var) (rhs : LinearForm) :
    Decidable (store.InlinesExactly eps v rhs) :=
  inferInstanceAs (Decidable (∀ row ∈ store.dependents.toList, _ → _))

theorem InlinesExactly.inline_eq (h : store.InlinesExactly eps v rhs) :
    store.inline eps v rhs = store.inline 0 v rhs := by
  have hrow : ∀ row ∈ store.dependents.toList, row.2.inline eps v rhs = row.2.inline 0 v rhs := by
    intro row hrow
    unfold LinearForm.inline
    split
    · rename_i hm
      rw [h row hrow hm, LinearForm.flush_zero]
    · rfl
  have hrewritten : Sweep.rewritten eps v rhs store.dependents.toList =
      Sweep.rewritten 0 v rhs store.dependents.toList :=
    List.map_congr_left fun row hmem => by rw [hrow row hmem]
  simp only [Store.inline, Sweep.ofRows, hrewritten]

theorem InlinesExactly.addRule_eq (h : store.InlinesExactly eps v rhs) (hvalid : rhs.valid) :
    store.addRule eps v rhs = store.addRule 0 v rhs := by
  unfold addRule
  split
  · rename_i c hc
    have hrhs := LinearForm.eq_ofConstant_of_value? hvalid hc
    have hsolved : (store.setSolved v c).InlinesExactly eps v (LinearForm.ofConstant c) := by
      rw [← hrhs]
      exact h
    exact hsolved.inline_eq
  · rw [h.inline_eq]

/-- A form expands in the store with the rule `v = rhs` as it did before, with `rhs` for `v`. -/
theorem exists_expand_addRule (h : store.WellFormed) (hp : p.WellFormed) (hq : store.Expands p q)
    (hrhs : store.Admits v rhs) (hfree : store.knows v = false)
    (hexact : store.InlinesExactly eps v rhs) :
    ∃ r, (store.addRule eps v rhs).expand p = .ok r ∧ r.WellFormed ∧
      ∀ w, r.coeff w = (q.replace v rhs).coeff w := by
  have h' : (store.addRule eps v rhs).WellFormed := h.addRule hrhs hfree
  obtain ⟨r, hr, hexp⟩ := exists_expand h' hp
  refine ⟨r, hr, hexp.wellFormed, LinearForm.coeff_eq_of_eval_eq hexp.wellFormed
    (hq.wellFormed.replace hrhs.ne_constant hrhs.wellFormed) fun s => ?_⟩
  -- the completion of `s` satisfies the old rules and the new one
  have hsat := satisfies_complete h' s
  rw [hexact.addRule_eq hrhs.valid, satisfies_addRule h hrhs hfree, ← hexact.addRule_eq hrhs.valid]
    at hsat
  have hother (w : Var) (hw : w ≠ v) (hk : store.knows w = false) :
      (store.addRule eps v rhs).complete s w = s w := by
    refine complete_of_not_knows ?_
    rw [← Bool.not_eq_true, knows_addRule h hrhs hfree, hk]
    exact fun hn => hn.elim hw Bool.false_ne_true
  have hvalue : (store.addRule eps v rhs).complete s v = rhs.eval s := by
    rw [hsat.1]
    exact LinearForm.eval_congr hrhs.wellFormed fun w hw =>
      hother w (hrhs.free w hw).1 (hrhs.free w hw).2
  rw [hexp.eval, ← hq.eval_of_satisfies h hsat.2,
    LinearForm.eval_replace hq.wellFormed hrhs.ne_constant]
  refine LinearForm.eval_congr hq.wellFormed fun w hw => ?_
  by_cases hwv : w = v
  · rw [hwv, hvalue, Function.update_self]
  · rw [Function.update_of_ne hwv, hother w hwv (hq.free w hw)]

end Store

/-- The rule that an assertion of `0 = p` makes, before it is flushed. -/
def Setting.candidate? (setting : Setting) (store : Store) (p : LinearForm) :
    Option (Var × LinearForm) :=
  match store.expand p with
  | .ok q =>
    (setting.pivot? store (q.flush setting.threshold)).map fun t =>
      (t.1, (q.flush setting.threshold).isolate t.1)
  | .error _ => none

theorem Setting.pivot?_of_isConstant (h : p.isConstant) : setting.pivot? store p = none :=
  Option.eq_none_iff_forall_ne_some.mpr fun _ ht => not_isConstant_of_pivot? ht h

theorem Setting.candidate?_eq (hq : store.expand p = .ok q) :
    setting.candidate? store p = (setting.pivot? store (q.flush setting.threshold)).map fun t =>
      (t.1, (q.flush setting.threshold).isolate t.1) := by
  rw [candidate?, hq]

theorem Setting.wellFormed_of_candidate? (h : store.WellFormed) (hp : p.WellFormed)
    {rule : Var × LinearForm} (hrule : setting.candidate? store p = some rule) :
    rule.1 ≠ Var.constant ∧ rule.2.WellFormed := by
  obtain ⟨q, hq, hexp⟩ := Store.exists_expand h hp
  rw [candidate?_eq hq, Option.map_eq_some_iff] at hrule
  obtain ⟨t, ht, rfl⟩ := hrule
  have hflush := hexp.wellFormed.flush setting.threshold
  have hv := hflush.key_ne_constant t (mem_of_pivot? ht)
  exact ⟨hv, hflush.isolate hv⟩

/-- With its rule in the store, an equation is redundant if its rule was stored as it was found. -/
theorem Store.exists_expand_again (h : store.WellFormed) (hp : p.WellFormed) (hvalid : p.valid)
    (hq : store.expand p = .ok q) (hpivot : setting.pivot? store (q.flush eps) = some (v, c))
    (hexact : store.InlinesExactly eps v (((q.flush eps).isolate v).flush eps)) :
    ∃ r, (store.addRule eps v (((q.flush eps).isolate v).flush eps)).expand p = .ok r ∧
      ((r.flush eps).value? = some 0 ↔
        ((q.flush eps).isolate v).flush eps = (q.flush eps).isolate v) := by
  obtain ⟨hm, hfree, hadmits⟩ := admits_of_pivot? h hp hvalid hq hpivot
  have hexp := Expands.of_expand h hp hq
  have hq' := hexp.wellFormed.flush eps
  have hv := LinearForm.ne_constant_of_mentions hq' hm
  obtain ⟨r, hr, hrwf, hcoeff⟩ := exists_expand_addRule h hp hexp hadmits hfree hexact
  refine ⟨r, hr, ?_⟩
  -- the pivot was not flushed
  have hpivot : Magnitude.flush eps (q.coeff v) = q.coeff v := by
    have hne := LinearForm.coeff_ne_zero_of_mentions hq' hm
    rw [LinearForm.coeff_flush hexp.wellFormed] at hne
    exact (Magnitude.flush_eq_self_or eps _).resolve_right hne
  have hc : q.coeff v ≠ 0 := by
    rw [← hpivot, ← LinearForm.coeff_flush hexp.wellFormed]
    exact LinearForm.coeff_ne_zero_of_mentions hq' hm
  rw [LinearForm.value?_flush_eq_zero_iff hrwf, LinearForm.flush_eq_self_iff (hq'.isolate hv)]
  refine forall_congr' fun w => ?_
  rw [hcoeff, LinearForm.coeff_replace hexp.wellFormed hv hadmits.wellFormed,
    LinearForm.coeff_flush (hq'.isolate hv), LinearForm.coeff_isolate hq' hv,
    LinearForm.coeff_flush hexp.wellFormed, LinearForm.coeff_flush hexp.wellFormed, hpivot]
  by_cases hwv : w = v
  · simp [hwv, Magnitude.flush_self_zero]
  · rw [if_neg hwv, if_neg hwv]
    exact Magnitude.residue_negligible_iff hc

/-! ### A repeated equation -/

/-- The call was accepted, left the solver as it was, and told the host nothing. -/
structure Outcome.ChangesNothing (outcome : Outcome) (solver : Solver) : Prop where
  accepted : outcome.verdict = .ok ()
  solver_eq : outcome.solver = solver
  notifications_eq : outcome.notifications = []

namespace Solver

variable {solver : Solver}

theorem changesNothing_add_iff (h : solver.store.WellFormed) (hp : p.WellFormed)
    (hhost : solver.host ≠ none) (hvalid : p.valid) (hnone : ∀ v, solver.isRetired v = false)
    (hr : solver.store.expand p = .ok r) :
    ∃ outcome, solver.add p = .ok outcome ∧
      (outcome.ChangesNothing solver ↔ (r.flush solver.threshold).value? = some 0) := by
  have hprogress : solver.progress.store.WellFormed := h
  obtain ⟨attempt, hassert, ha⟩ := Progress.exists_assert solver.toSetting hprogress hp
  obtain ⟨outcome, hadd, hsolver, hverdict, hnotes⟩ := add_of_not_isRetired hnone hassert
  refine ⟨outcome, hadd, ?_⟩
  cases ha with
  | noHost host => exact absurd host hhost
  | invalid _ invalid => rw [hvalid] at invalid; cases invalid
  | redundant _ _ expand value =>
    cases hr.symm.trans expand
    exact iff_of_true ⟨hverdict, hsolver, hnotes⟩ value
  | inconsistent _ _ expand ne_zero value =>
    cases hr.symm.trans expand
    refine iff_of_false (fun hn => ?_) fun hn => ?_
    · cases hverdict.symm.trans hn.accepted
    · cases value.symm.trans hn
      exact ne_zero rfl
  | @solved _ _ _ expand v c pivot =>
    cases hr.symm.trans expand
    obtain ⟨hm, hfree, hadmits⟩ := Store.admits_of_pivot? h hp hvalid hr pivot
    refine iff_of_false (fun hn => ?_) fun hn => ?_
    -- the pivot has a rule in the new store, and had none before
    · have hstore : (Progress.withRule ..).store = solver.store :=
        congrArg Solver.store (hsolver.symm.trans hn.solver_eq)
      rw [Progress.store_withRule] at hstore
      exact Store.addRule_ne_self h hadmits hfree hstore
    · have hflush := (Store.Expands.of_expand h hp hr).wellFormed.flush solver.threshold
      exact LinearForm.not_mentions_of_isConstant hflush (LinearForm.value?_eq_some_iff.mp hn).1 hm

/-- An accepted equation was redundant, or its rule was added to the store. -/
theorem solver_eq_of_accepted (h : solver.store.WellFormed) (hp : p.WellFormed)
    (hnone : ∀ v, solver.isRetired v = false) {outcome : Outcome}
    (hadd : solver.add p = .ok outcome) (haccepted : outcome.verdict = .ok ()) :
    solver.host ≠ none ∧ p.valid ∧ ∃ q, solver.store.expand p = .ok q ∧
      ((q.flush solver.threshold).value? = some 0 ∧ outcome.solver = solver ∨
        ∃ v c, solver.pivot? solver.store (q.flush solver.threshold) = some (v, c) ∧
          outcome.solver = { solver with
            store := solver.store.addRule solver.threshold v
              (((q.flush solver.threshold).isolate v).flush solver.threshold) }) := by
  have hprogress : solver.progress.store.WellFormed := h
  obtain ⟨attempt, hassert, ha⟩ := Progress.exists_assert solver.toSetting hprogress hp
  obtain ⟨outcome', hadd', hsolver, hverdict, -⟩ := add_of_not_isRetired hnone hassert
  cases hadd.symm.trans hadd'
  rw [haccepted] at hverdict
  cases ha with
  | noHost | invalid | inconsistent => cases hverdict
  | redundant host valid expand value => exact ⟨host, valid, _, expand, .inl ⟨value, hsolver⟩⟩
  | solved host valid expand pivot =>
    refine ⟨host, valid, _, expand, .inr ⟨_, _, pivot, hsolver.trans ?_⟩⟩
    show ({ solver with store := (Progress.withRule ..).store } : Solver) = _
    rw [Progress.store_withRule]
    rfl

/-- The rule of `0 = p` has nothing to be flushed after the division by its pivot. -/
def DividesExactly (solver : Solver) (p : LinearForm) : Prop :=
  ∀ rule ∈ solver.candidate? solver.store p, rule.2.flush solver.threshold = rule.2

/-- No right-hand side has anything to be flushed after the substitution of the rule of `0 = p`. -/
def SubstitutesExactly (solver : Solver) (p : LinearForm) : Prop :=
  ∀ rule ∈ solver.candidate? solver.store p,
    solver.store.InlinesExactly solver.threshold rule.1 (rule.2.flush solver.threshold)

instance (solver : Solver) (p : LinearForm) : Decidable (solver.DividesExactly p) :=
  inferInstanceAs (Decidable (∀ rule ∈ solver.candidate? solver.store p, _))

instance (solver : Solver) (p : LinearForm) : Decidable (solver.SubstitutesExactly p) :=
  inferInstanceAs (Decidable (∀ rule ∈ solver.candidate? solver.store p, _))

theorem changesNothing_again_iff (h : solver.store.WellFormed) (hp : p.WellFormed)
    (hnone : ∀ v, solver.isRetired v = false) {first second : Outcome}
    (hfirst : solver.add p = .ok first) (hsecond : first.solver.add p = .ok second)
    (haccepted : first.verdict = .ok ()) (hexact : solver.SubstitutesExactly p) :
    second.ChangesNothing first.solver ↔ solver.DividesExactly p := by
  obtain ⟨host, valid, q, expand, hsolver⟩ := solver_eq_of_accepted h hp hnone hfirst haccepted
  rw [SubstitutesExactly, Setting.candidate?_eq expand] at hexact
  rw [DividesExactly, Setting.candidate?_eq expand]
  rcases hsolver with ⟨value, hsolver⟩ | ⟨v, c, pivot, hsolver⟩
  -- a redundant equation makes no rule and is redundant again
  · obtain ⟨outcome, hadd, hiff⟩ := changesNothing_add_iff h hp host valid hnone expand
    rw [hsolver] at hsecond ⊢
    cases hadd.symm.trans hsecond
    have hpivot : solver.pivot? solver.store (q.flush solver.threshold) = none :=
      Setting.pivot?_of_isConstant (LinearForm.value?_eq_some_iff.mp value).1
    rw [hiff, hpivot]
    exact iff_of_true value fun _ hrule => by cases hrule
  -- else the new store has its rule, which decides about the residue
  · rw [pivot] at hexact ⊢
    simp only [Option.map_some, Option.mem_some_iff, forall_eq'] at hexact ⊢
    obtain ⟨-, hfree, hadmits⟩ := Store.admits_of_pivot? h hp valid expand pivot
    obtain ⟨r, hr, hredundant⟩ := Store.exists_expand_again h hp valid expand pivot hexact
    have hwf : first.solver.store.WellFormed := by
      rw [hsolver]
      exact h.addRule hadmits hfree
    have hsetting : first.solver.toSetting = solver.toSetting := by rw [hsolver]
    have hr : first.solver.store.expand p = .ok r := by
      rw [hsolver]
      exact hr
    rw [← hsetting] at host hnone
    obtain ⟨outcome, hadd, hiff⟩ := changesNothing_add_iff hwf hp host valid hnone hr
    cases hadd.symm.trans hsecond
    rw [hiff, hsetting]
    exact hredundant

/-- Where nothing is flushed, an accepted equation that is asserted again is redundant. -/
theorem changesNothing_again_of_nonpos (h : solver.store.WellFormed) (hp : p.WellFormed)
    (hnone : ∀ v, solver.isRetired v = false) (heps : solver.threshold ≤ 0)
    {first second : Outcome} (hfirst : solver.add p = .ok first)
    (hsecond : first.solver.add p = .ok second) (haccepted : first.verdict = .ok ()) :
    second.ChangesNothing first.solver := by
  have hdivides : solver.DividesExactly p := fun rule hrule =>
    LinearForm.flush_of_nonpos heps (Setting.wellFormed_of_candidate? h hp hrule).2
  refine (changesNothing_again_iff h hp hnone hfirst hsecond haccepted ?_).mpr hdivides
  intro rule hrule row hrow _
  obtain ⟨hv, hrhs⟩ := Setting.wellFormed_of_candidate? h hp hrule
  exact LinearForm.flush_of_nonpos heps ((h.rhs_wellFormed row hrow).replace hv (hrhs.flush _))

end Solver

namespace Run

/-- Whatever the threshold is and however the solver got where it is, an accepted equation that is
asserted again changes nothing exactly if its rule was stored as it was found. -/
theorem changesNothing_iff_of_calls (setting : Setting) {calls : List Call}
    (hcalls : ∀ call ∈ calls, call.WellFormed) (hp : p.WellFormed) :
    ∃ run first second, (start setting).calls calls = .ok run ∧ run.solver.add p = .ok first ∧
      first.solver.add p = .ok second ∧
      ((∀ v, run.solver.isRetired v = false) → first.verdict = .ok () →
        run.solver.SubstitutesExactly p →
        (second.ChangesNothing first.solver ↔ run.solver.DividesExactly p)) := by
  obtain ⟨run, hrun, h⟩ := exists_calls (start setting) Store.wellFormed_empty hcalls
  obtain ⟨first, hfirst, -, h'⟩ := Solver.exists_add h hp
  obtain ⟨second, hsecond, -⟩ := Solver.exists_add h' hp
  exact ⟨run, first, second, hrun, hfirst, hsecond, fun hnone haccepted hexact =>
    Solver.changesNothing_again_iff h hp hnone hfirst hsecond haccepted hexact⟩

theorem changesNothing_of_calls_reduced :
    ∃ run first second, (start { host := some { nameOf := Var.genericName } }).calls
        [.addAll [.ofTerms 0 [(2, 4), (1, 1), (3, -2)], .ofTerms (-5) [(4, 3), (1, 1)]]] = .ok run ∧
      run.solver.add (.ofTerms (1 / 1000000) [(1, 3), (2, 1), (5, 1 / 200000)]) = .ok first ∧
      first.solver.add (.ofTerms (1 / 1000000) [(1, 3), (2, 1), (5, 1 / 200000)]) = .ok second ∧
      second.ChangesNothing first.solver := by
  have hforms : ∀ q ∈ [LinearForm.ofTerms 0 [(2, 4), (1, 1), (3, -2)],
      .ofTerms (-5) [(4, 3), (1, 1)]], q.WellFormed := by
    simp [LinearForm.WellFormed.ofTerms]
  refine (changesNothing_iff_of_calls _ ?_ (.ofTerms ..)).imp fun run => Exists.imp fun first =>
    Exists.imp fun second h => ⟨h.1, h.2.1, h.2.2.1, ?_⟩
  · exact List.forall_mem_singleton.mpr hforms
  obtain ⟨hrun, hfirst, -, hiff⟩ := h
  have hnone (v : Var) : run.solver.isRetired v = false := by
    have hempty : (start { host := some { nameOf := Var.genericName } }).solver.store.WellFormed :=
      Store.wellFormed_empty
    obtain ⟨outcome, hadd, hsetting, -⟩ := Solver.exists_addAll hempty hforms
    have hcall : (Call.addAll _).outcome (start _).solver = .ok outcome := hadd
    rw [calls, List.foldlM_cons, call_eq_ok hcall] at hrun
    cases hrun
    show outcome.solver.isRetired v = false
    rw [hsetting]
    rfl
  have hfacts := apply_eq_of_map_eq_ok (b := (true, true, .ok (.ok ())))
    (f := fun run : Run =>
      let p := .ofTerms (1 / 1000000) [(1, 3), (2, 1), (5, 1 / 200000)]
      (decide (run.solver.DividesExactly p), decide (run.solver.SubstitutesExactly p),
        (run.solver.add p).map Outcome.verdict)) hrun (by decide +kernel)
  simp only [Prod.mk.injEq, decide_eq_true_eq] at hfacts
  obtain ⟨hdivides, hsubstitutes, hverdict⟩ := hfacts
  rw [hfirst] at hverdict
  exact (hiff hnone (Except.ok.inj hverdict) hsubstitutes).mpr hdivides

/-- Divided by a million, the equation is solved as zero, by which it is off by one. -/
theorem repeated_equation_rejected :
    ∃ run outcome, (start { host := some { nameOf := Var.genericName } }).calls
        [.add (.ofTerms 1 [(1, 1000000)])] = .ok run ∧ run.accepted = [.ofTerms 1 [(1, 1000000)]] ∧
      run.solver.add (.ofTerms 1 [(1, 1000000)]) = .ok outcome ∧
      outcome.verdict = .error (.inconsistent 1) := by
  obtain ⟨run, hrun, hfacts⟩ := exists_of_map_eq_ok
    (x := (start { host := some { nameOf := Var.genericName } }).calls
      [.add (.ofTerms 1 [(1, 1000000)])])
    (f := fun run =>
      (run.accepted, (run.solver.add (.ofTerms 1 [(1, 1000000)])).map Outcome.verdict))
    (b := ([.ofTerms 1 [(1, 1000000)]], .ok (.error (.inconsistent 1)))) (by decide +kernel)
  obtain ⟨haccepted, hverdict⟩ := Prod.mk.inj hfacts
  obtain ⟨outcome, hadd, hverdict⟩ := exists_of_map_eq_ok hverdict
  exact ⟨run, outcome, hrun, haccepted, hadd, hverdict⟩

end Run

end SolvedForm
