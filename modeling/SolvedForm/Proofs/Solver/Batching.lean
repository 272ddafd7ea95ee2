import SolvedForm.Proofs.Solver.Framing
import SolvedForm.Proofs.Solver.Purging

/-!
# Batches and single equations

A batch retires what the host reports once, at its end. Equations that are added one at a time
(`Solver.addEach`) are followed by a retirement each, which may lose a relation that a later one
would have needed. At the threshold zero a retirement of several variables is a projection
(`Store.satisfies_retireAll`), and projecting early never loses solutions. So a batch that is
accepted is accepted one by one too, and knows at least as much afterwards
(`Solver.exists_addEach_of_assertAll`). Where nothing retires the two ways do not differ at all
(`Solver.exists_addEach_of_not_isRetired`).
-/

namespace SolvedForm

variable {setting : Setting} {store : Store} {p : LinearForm} {ps : List LinearForm} {v : Var}
  {vs : List Var} {s s' : Var → Rat}

namespace Store

theorem satisfies_congr (h : store.WellFormed) (hs : ∀ v, store.Mentions v → s v = s' v) :
    store.Satisfies s ↔ store.Satisfies s' := by
  rw [satisfies_iff h, satisfies_iff h]
  refine forall_congr' fun v => forall_congr' fun q => forall_congr' fun hq => ?_
  have heval : q.eval s = q.eval s' :=
    LinearForm.eval_congr (wellFormed_of_rule? h hq) fun w hw =>
      hs w ((mentions_iff_rule? h).mpr ⟨v, q, hq, .inr hw⟩)
  rw [hs v (.inl (knows_of_rule? hq)), heval]

/-- The solutions after several retirements are those that some values of the retired variables
extend to solutions of the store before. -/
theorem satisfies_retireAll (h : store.WellFormed) :
    (store.retireAll 0 vs).Satisfies s ↔
      ∃ s', (∀ v, v ∉ vs → s' v = s v) ∧ store.Satisfies s' := by
  induction vs generalizing store with
  | nil =>
    constructor
    · exact fun hs => ⟨s, fun _ _ => rfl, hs⟩
    · rintro ⟨s', hagree, hs⟩
      rwa [funext fun v => hagree v List.not_mem_nil] at hs
  | cons v vs ih =>
    show ((store.retire 0 v).retireAll 0 vs).Satisfies s ↔ _
    rw [ih (h.retire 0 v)]
    constructor
    · rintro ⟨s', hagree, hs⟩
      obtain ⟨a, hs⟩ := (satisfies_retire h v).mp hs
      refine ⟨Function.update s' v a, fun w hw => ?_, hs⟩
      rw [List.mem_cons, not_or] at hw
      rw [Function.update_of_ne hw.1, hagree w hw.2]
    · rintro ⟨s', hagree, hs⟩
      refine ⟨Function.update s' v (s v), fun w hw => ?_, (satisfies_retire h v).mpr ⟨s' v, ?_⟩⟩
      · by_cases hwv : w = v
        · rw [hwv, Function.update_self]
        · rw [Function.update_of_ne hwv, hagree w]
          exact fun hmem => (List.mem_cons.mp hmem).elim hwv hw
      · rwa [Function.update_idem, Function.update_eq_self]

theorem satisfies_purge_of_satisfies (h : store.WellFormed) (hexact : setting.threshold = 0)
    (hs : store.Satisfies s) : (store.purge setting).Satisfies s := by
  rw [purge, hexact, satisfies_retireAll h]
  exact ⟨s, fun _ _ => rfl, hs⟩

/-- A store that mentions no retired variable has the solutions of `store` even after what is
reported has retired from `store`. -/
theorem satisfies_of_satisfies_purge {store' : Store} (h : store.WellFormed)
    (h' : store'.WellFormed) (hexact : setting.threshold = 0) (hpurged : store'.Purged setting)
    (hle : ∀ s, store.Satisfies s → store'.Satisfies s) (hs : (store.purge setting).Satisfies s) :
    store'.Satisfies s := by
  rw [purge, hexact, satisfies_retireAll h] at hs
  obtain ⟨s', hagree, hs'⟩ := hs
  refine (satisfies_congr h' fun v hv => hagree v fun hmem => ?_).mp (hle s' hs')
  exact hpurged v (List.mem_filter.mp hmem).2 hv

end Store

/-! ### A batch, equation by equation -/

namespace Progress

variable {progress : Progress} {attempt first : Attempt}

theorem Asserted.host_valid (ha : Asserted setting progress p attempt)
    (hverdict : attempt.verdict = .ok ()) : setting.host ≠ none ∧ p.valid := by
  cases ha with
  | noHost | invalid | inconsistent => cases hverdict
  | redundant host valid | solved host valid => exact ⟨host, valid⟩

theorem notifications_following (earlier : List Event) (progress : Progress) :
    (progress.following earlier).notifications =
      earlier.filterMap Event.notification? ++ progress.notifications :=
  List.filterMap_append

/-- An equation of a batch is asserted as if it were the first of a call. -/
theorem assert_fromBatch (index : Nat) {fresh : Progress} (hstore : fresh.store = progress.store)
    (hevents : fresh.events = []) (hassert : fresh.assert setting p = .ok first) :
    (progress.record (.fromBatch index)).assert setting p =
      .ok (first.following (progress.events ++ [.fromBatch index])) := by
  have hprogress : progress.record (.fromBatch index) =
      fresh.following (progress.events ++ [.fromBatch index]) := by
    simp [record, following, hstore, hevents]
  rw [hprogress, assert_following, hassert]
  rfl

end Progress

namespace Solver

variable {solver : Solver}

/-- Adds equations one at a time, up to the first that is not accepted. -/
def addEach (solver : Solver) : List LinearForm → Except Misuse Outcome
  | [] => .ok { solver }
  | p :: ps => do
    let outcome ← solver.add p
    match outcome.verdict with
    | .error _ => return outcome
    | .ok () =>
      let last ← outcome.solver.addEach ps
      return { last with events := outcome.events ++ last.events }

theorem addEach_cons_of_accepted {outcome each : Outcome} (hadd : solver.add p = .ok outcome)
    (hverdict : outcome.verdict = .ok ()) (heach : outcome.solver.addEach ps = .ok each) :
    solver.addEach (p :: ps) = .ok { each with events := outcome.events ++ each.events } := by
  rw [addEach, hadd]
  simp only [bind, Except.bind, hverdict, heach]
  rfl

theorem addEach_cons_of_rejected {outcome : Outcome} {rejection : Rejection}
    (hadd : solver.add p = .ok outcome) (hverdict : outcome.verdict = .error rejection) :
    solver.addEach (p :: ps) = .ok outcome := by
  rw [addEach, hadd]
  simp only [bind, Except.bind, hverdict]
  rfl

theorem exists_addEach (h : solver.store.WellFormed) (hps : ∀ p ∈ ps, p.WellFormed) :
    ∃ each, solver.addEach ps = .ok each := by
  induction ps generalizing solver with
  | nil => exact ⟨_, rfl⟩
  | cons p ps ih =>
    obtain ⟨hp, hps⟩ := List.forall_mem_cons.mp hps
    obtain ⟨outcome, hadd, -, hwf⟩ := exists_add h hp
    cases hverdict : outcome.verdict with
    | error rejection => exact ⟨_, addEach_cons_of_rejected hadd hverdict⟩
    | ok =>
      obtain ⟨last, hlast⟩ := ih hwf hps
      exact ⟨_, addEach_cons_of_accepted hadd hverdict hlast⟩

/-- Where nothing retires, equations do the same in a batch as one at a time, up to the first that
is not accepted. -/
theorem exists_addEach_of_not_isRetired (h : solver.store.WellFormed)
    (hnone : ∀ v, solver.isRetired v = false) (hps : ∀ p ∈ ps, p.WellFormed) {progress : Progress}
    (hstore : progress.store = solver.store) (index : Nat) :
    ∃ attempt each, progress.assertAll (fun _ => solver.toSetting) index ps = .ok attempt ∧
      solver.addEach ps = .ok each ∧ each.solver = { solver with store := attempt.store } ∧
      each.verdict = attempt.verdict ∧
      attempt.notifications = progress.notifications ++ each.notifications := by
  induction ps generalizing solver progress index with
  | nil =>
    refine ⟨progress.accept, _, rfl, rfl, ?_, rfl, (List.append_nil _).symm⟩
    show solver = { solver with store := progress.store }
    rw [hstore]
  | cons p ps ih =>
    obtain ⟨hp, hps⟩ := List.forall_mem_cons.mp hps
    have hprogress : solver.progress.store.WellFormed := h
    obtain ⟨first, hfirst, ha⟩ := Progress.exists_assert solver.toSetting hprogress hp
    obtain ⟨outcome, hadd, hsolver, hverdict, hnotes⟩ := add_of_not_isRetired hnone hfirst
    have hassert := Progress.assert_fromBatch index hstore.symm rfl hfirst
    have hheard : (first.following (progress.events ++ [.fromBatch index])).notifications =
        progress.notifications ++ outcome.notifications := by
      rw [hnotes]
      refine (Progress.notifications_following ..).trans ?_
      rw [List.filterMap_append, List.append_assoc]
      rfl
    cases haccepted : first.verdict with
    | error rejection =>
      exact ⟨_, outcome, Progress.assertAll_cons_of_rejected hassert haccepted,
        addEach_cons_of_rejected hadd (hverdict.trans haccepted), hsolver, hverdict, hheard⟩
    | ok =>
      have hwf : outcome.solver.store.WellFormed := by
        rw [hsolver]
        exact ha.wellFormed hprogress hp
      have hnone : ∀ v, outcome.solver.isRetired v = false := by
        rw [hsolver]
        exact hnone
      have hstore : (first.toProgress.following
          (progress.events ++ [.fromBatch index])).store = outcome.solver.store := by
        rw [hsolver]
        rfl
      -- from here both ways go on with the same store, whatever was reported before
      obtain ⟨attempt, each, hattempt, heach, hsolver', hverdict', hnotes'⟩ :=
        ih hwf hnone hps hstore (index + 1)
      rw [hsolver] at hattempt
      have hrest : progress.assertAll (fun _ => solver.toSetting) index (p :: ps) = .ok attempt := by
        rw [Progress.assertAll_cons_of_accepted hassert]
        · exact hattempt
        · exact haccepted
      refine ⟨attempt, _, hrest,
        addEach_cons_of_accepted hadd (hverdict.trans haccepted) heach, ?_, hverdict', ?_⟩
      · rw [hsolver', hsolver]
      · rw [hnotes']
        refine (congrArg (· ++ _) hheard).trans ?_
        simp [Outcome.notifications]

theorem exists_add_of_satisfies (h : solver.store.WellFormed) (hexact : solver.threshold = 0)
    (hhost : solver.host ≠ none) (hp : p.WellFormed) (hvalid : p.valid)
    (hs : solver.store.Satisfies s) (hzero : p.eval s = 0) :
    ∃ outcome, solver.add p = .ok outcome ∧ outcome.verdict = .ok () ∧
      outcome.solver.toSetting = solver.toSetting ∧ outcome.solver.store.WellFormed ∧
      outcome.solver.store.Purged solver.toSetting ∧
      ∀ s, solver.store.Satisfies s → p.eval s = 0 → outcome.solver.store.Satisfies s := by
  have hprogress : solver.progress.store.WellFormed := h
  obtain ⟨attempt, hassert, ha⟩ := Progress.exists_assert solver.toSetting hprogress hp
  have haccepted : attempt.verdict = .ok () := by
    by_contra hn
    exact (ha.decides hprogress hp hvalid hhost hexact).rejected_iff.mp hn s hs hzero
  have hwf := ha.wellFormed hprogress hp
  obtain ⟨outcome, hadd, hverdict, hsolver⟩ := exists_add_purge hwf hassert haccepted
  refine ⟨outcome, hadd, hverdict, ?_⟩
  rw [hsolver]
  refine ⟨rfl, hwf.purge _, Store.purged_purge hwf _, fun s hs hzero => ?_⟩
  refine Store.satisfies_purge_of_satisfies hwf hexact ?_
  exact (ha.satisfies hprogress hp hexact haccepted).mpr ⟨hs, hzero⟩

/-- Equations that are accepted by a batch are accepted one at a time by a solver that knows no more
than the store before the batch, and it knows no more than the batch afterwards. -/
theorem exists_addEach_of_assertAll (h : solver.store.WellFormed) (hexact : solver.threshold = 0)
    (hps : ∀ p ∈ ps, p.WellFormed) {progress : Progress} (hwf : progress.store.WellFormed)
    (hle : ∀ s, progress.store.Satisfies s → solver.store.Satisfies s) {index : Nat}
    {attempt : Attempt}
    (hassert : progress.assertAll (fun _ => solver.toSetting) index ps = .ok attempt)
    (haccepted : attempt.verdict = .ok ()) :
    ∃ each, solver.addEach ps = .ok each ∧ each.verdict = .ok () ∧
      each.solver.store.WellFormed ∧
      (solver.store.Purged solver.toSetting ∨ ps ≠ [] →
        each.solver.store.Purged solver.toSetting) ∧
      ∀ s, attempt.store.Satisfies s → each.solver.store.Satisfies s := by
  induction ps generalizing solver progress index with
  | nil =>
    cases hassert
    exact ⟨_, rfl, rfl, h, fun hpurged => hpurged.resolve_right fun hn => hn rfl, hle⟩
  | cons p ps ih =>
    obtain ⟨hp, hps⟩ := List.forall_mem_cons.mp hps
    have hrecord : (progress.record (.fromBatch index)).store.WellFormed := hwf
    obtain ⟨first, hfirst, ha⟩ := Progress.exists_assert solver.toSetting hrecord hp
    have hverdict : first.verdict = .ok () := by
      cases hverdict : first.verdict with
      | ok => rfl
      | error rejection =>
        rw [Progress.assertAll_cons_of_rejected hfirst hverdict] at hassert
        cases hassert
        exact hverdict.symm.trans haccepted
    rw [Progress.assertAll_cons_of_accepted hfirst hverdict] at hassert
    obtain ⟨hhost, hvalid⟩ := ha.host_valid hverdict
    have hfirstwf := ha.wellFormed hrecord hp
    have hsat (s : Var → Rat) : first.store.Satisfies s ↔
        progress.store.Satisfies s ∧ p.eval s = 0 := ha.satisfies hrecord hp hexact hverdict
    -- the batch still has a solution, which makes the equation acceptable to the other solver
    obtain ⟨hs, hzero⟩ := (hsat _).mp (Store.satisfies_complete hfirstwf fun _ => 0)
    obtain ⟨outcome, hadd, hok, hsetting, hwf', hpurged, hle'⟩ :=
      exists_add_of_satisfies h hexact hhost hp hvalid (hle _ hs) hzero
    rw [← hsetting] at hexact hassert hpurged ⊢
    obtain ⟨each, heach, hlast, hwf'', hpurged', hle''⟩ := ih hwf' hexact hps hfirstwf
      (fun s hs => hle' s (hle s ((hsat s).mp hs).1) ((hsat s).mp hs).2) hassert
    exact ⟨_, addEach_cons_of_accepted hadd hok heach, hlast, hwf'',
      fun _ => hpurged' (.inl hpurged), hle''⟩

end Solver

namespace Run

/-- A batch never knows less than its equations do one at a time, and where nothing retires it knows
just as much and says the same. -/
theorem addEach_le_addAll_of_calls (setting : Setting) {calls : List Call}
    (hcalls : ∀ call ∈ calls, call.WellFormed) (hps : ∀ p ∈ ps, p.WellFormed) :
    ∃ run batch each, (start setting).calls calls = .ok run ∧ run.solver.addAll ps = .ok batch ∧
      run.solver.addEach ps = .ok each ∧
      (run.solver.threshold = 0 → ps ≠ [] → batch.verdict = .ok () →
        each.verdict = .ok () ∧
        (∀ s, batch.solver.store.Satisfies s → each.solver.store.Satisfies s) ∧
        ∀ v c, each.solver.store.solved.get? v = some c →
          batch.solver.store.solved.get? v = some c) ∧
      ((∀ v, run.solver.isRetired v = false) →
        batch.solver = each.solver ∧ batch.verdict = each.verdict ∧
        batch.notifications = each.notifications) := by
  obtain ⟨run, hrun, h⟩ := exists_calls (start setting) Store.wellFormed_empty hcalls
  have hprogress : run.solver.progress.store.WellFormed := h
  obtain ⟨attempt, hassert, hwf, -⟩ := Progress.exists_assertAll hprogress 0 ps hps
  obtain ⟨batch, hbatch, hverdict, hsolver⟩ := Solver.exists_addAll_purge hwf hassert
  obtain ⟨each, heach⟩ := Solver.exists_addEach h hps
  refine ⟨run, batch, each, hrun, hbatch, heach, fun hexact hne haccepted => ?_, fun hnone => ?_⟩
  · obtain ⟨each', heach', hok, hwf', hpurged, hle⟩ := Solver.exists_addEach_of_assertAll h hexact
      hps hprogress (fun s hs => hs) hassert (hverdict.symm.trans haccepted)
    cases heach.symm.trans heach'
    have hsat (s : Var → Rat) (hs : batch.solver.store.Satisfies s) :
        each.solver.store.Satisfies s := by
      rw [hsolver] at hs
      exact Store.satisfies_of_satisfies_purge hwf hwf' hexact (hpurged (.inr hne)) hle hs
    refine ⟨hok, hsat, fun v c hc => ?_⟩
    have hwf : batch.solver.store.WellFormed := by
      rw [hsolver]
      exact hwf.purge _
    rw [Store.get?_solved_iff hwf]
    exact fun s hs => (Store.get?_solved_iff hwf').mp hc s (hsat s hs)
  · have hstore : run.solver.progress.store = run.solver.store := rfl
    obtain ⟨attempt', each', hassert', heach', hsolver', hverdict', hnotes'⟩ :=
      Solver.exists_addEach_of_not_isRetired h hnone hps hstore 0
    obtain ⟨batch', hbatch', hsolver'', hverdict'', hnotes''⟩ :=
      Solver.addAll_of_not_isRetired hnone hassert'
    cases heach.symm.trans heach'
    cases hbatch.symm.trans hbatch'
    exact ⟨hsolver''.trans hsolver'.symm, hverdict''.trans hverdict'.symm,
      hnotes''.trans hnotes'⟩

/-- One at a time `x₂ = x₄` is lost as `x₄` retires, while the batch still relates it to `x₁`. Where
nothing retires the two ways end at the same contradiction, with the same values flushed. -/
theorem addEach_le_addAll_of_calls_retiring :
    (∃ run batch each, (start {}).calls [.setThreshold 0, .add (.ofTerms 1 [(7, 1)]),
        .attach { nameOf := Var.genericName, isRetired := fun v => v == 4 },
        .add (.ofTerms (-2) [(1, 1)])] = .ok run ∧
      run.solver.addAll [.ofTerms 0 [(1, 1), (4, -1)], .ofTerms 0 [(2, 1), (4, -1)]] = .ok batch ∧
      run.solver.addEach [.ofTerms 0 [(1, 1), (4, -1)], .ofTerms 0 [(2, 1), (4, -1)]] =
        .ok each ∧
      each.verdict = .ok () ∧
      (∀ s, batch.solver.store.Satisfies s → each.solver.store.Satisfies s) ∧
      (∀ v c, each.solver.store.solved.get? v = some c →
        batch.solver.store.solved.get? v = some c) ∧
      (batch.solver.isSolved 2, each.solver.isSolved 2) = (true, false)) ∧
    ∃ batch each,
      (start { host := some { nameOf := Var.genericName } }).solver.addAll
        [.ofTerms 0 [(1, 1), (2, -1)], .ofTerms 1 [(3, 1000000)], .ofTerms 1 [(1, 1), (2, -1)],
          .ofTerms 0 [(4, 1)]] = .ok batch ∧
      (start { host := some { nameOf := Var.genericName } }).solver.addEach
        [.ofTerms 0 [(1, 1), (2, -1)], .ofTerms 1 [(3, 1000000)], .ofTerms 1 [(1, 1), (2, -1)],
          .ofTerms 0 [(4, 1)]] = .ok each ∧
      batch.solver = each.solver ∧ batch.verdict = each.verdict ∧
      batch.notifications = each.notifications ∧
      (each.verdict, each.notifications) = (.error (.inconsistent 1), [(3, 0)]) := by
  constructor
  · refine (addEach_le_addAll_of_calls {} ?_ ?_).imp fun run => Exists.imp fun batch =>
      Exists.imp fun each h => ⟨h.1, h.2.1, h.2.2.1, ?_⟩
    · simp [Call.WellFormed, LinearForm.WellFormed.ofTerms]
    · simp [LinearForm.WellFormed.ofTerms]
    obtain ⟨hrun, hbatch, heach, hknows, -⟩ := h
    have hfacts := apply_eq_of_map_eq_ok (b := .ok (0, .ok (), true, false))
      (f := fun run : Run => do
        let batch ← run.solver.addAll [.ofTerms 0 [(1, 1), (4, -1)], .ofTerms 0 [(2, 1), (4, -1)]]
        let each ← run.solver.addEach [.ofTerms 0 [(1, 1), (4, -1)], .ofTerms 0 [(2, 1), (4, -1)]]
        return (run.solver.threshold, batch.verdict, batch.solver.isSolved 2,
          each.solver.isSolved 2)) hrun (by decide +kernel)
    simp only [hbatch, heach, bind, Except.bind, pure, Except.pure, Except.ok.injEq,
      Prod.mk.injEq] at hfacts
    obtain ⟨hexact, haccepted, hsolved, hlost⟩ := hfacts
    obtain ⟨hok, hsat, hvalues⟩ := hknows hexact (by simp) haccepted
    exact ⟨hok, hsat, hvalues, by rw [hsolved, hlost]⟩
  · have hforms : ∀ p ∈ [LinearForm.ofTerms 0 [(1, 1), (2, -1)], .ofTerms 1 [(3, 1000000)],
        .ofTerms 1 [(1, 1), (2, -1)], .ofTerms 0 [(4, 1)]], p.WellFormed := by
      simp [LinearForm.WellFormed.ofTerms]
    have hnil (call : Call) (hcall : call ∈ []) : call.WellFormed := absurd hcall List.not_mem_nil
    obtain ⟨run, batch, each, hrun, hbatch, heach, -, hsame⟩ := addEach_le_addAll_of_calls
      { host := some { nameOf := Var.genericName } } hnil hforms
    cases hrun
    obtain ⟨hsolver, hverdict, hnotes⟩ := hsame fun v => rfl
    refine ⟨batch, each, hbatch, heach, hsolver, hverdict, hnotes, ?_⟩
    exact apply_eq_of_map_eq_ok (b := (.error (.inconsistent 1), [(3, 0)]))
      (f := fun each => (each.verdict, each.notifications)) heach (by decide +kernel)

end Run

end SolvedForm
