import SolvedForm.Proofs.Solver.Forgetting

/-!
# Retired variables are gone for good

`store.mentioned` lists every variable that the store mentions (`Store.mem_mentioned`), and a
retirement mentions no variable anew (`Store.Mentions.of_retire`): the holder through which `v` is
eliminated was mentioned already. So the list need not be read again while its variables retire one
after the other, and a solver is `Purged` afterwards: it mentions no retired variable, and another
retirement of what the host reports does nothing.
-/

namespace SolvedForm

variable {setting : Setting} {store : Store} {v w y : Var} {eps : Rat} {vs : List Var}

namespace Table

theorem foldl_insert_unit (t : Table Unit) (vs : List Var) :
    vs.foldl (fun t v => t.insert v ()) t =
      (vs.map fun v => (v, ())).foldl (fun t row => t.insert row.1 row.2) t := by
  rw [List.foldl_map]

theorem contains_foldl_insert {t : Table Unit} (ht : t.Sorted) (vs : List Var) :
    (vs.foldl (fun t v => t.insert v ()) t).contains w ↔ w ∈ vs ∨ t.contains w := by
  induction vs generalizing t with
  | nil => simp
  | cons v vs ih =>
    rw [List.foldl_cons, ih (ht.insert v ()), contains, get?_insert ht, List.mem_cons]
    split
    · rename_i hw
      simp [hw]
    · rename_i hw
      simp [hw, contains]

end Table

namespace Store

/-- The variable has a rule, or a right-hand side mentions it. -/
def Mentions (store : Store) (v : Var) : Prop :=
  store.knows v = true ∨ ∃ row ∈ store.dependents.toList, row.2.mentions v

theorem mem_mentioned (h : store.WellFormed) : v ∈ store.mentioned ↔ store.Mentions v := by
  have hempty : ({} : Table Unit).Sorted := List.Pairwise.nil
  have hsupport : (∃ row ∈ store.dependents.toList, v = row.1 ∨ v ∈ row.2.support) ↔
      store.dependents.contains v = true ∨
        ∃ row ∈ store.dependents.toList, row.2.mentions v := by
    rw [Table.contains_iff h.dependents_sorted, Table.keys, List.mem_map]
    constructor
    · rintro ⟨row, hrow, rfl | hv⟩
      · exact .inl ⟨row, hrow, rfl⟩
      · exact .inr ⟨row, hrow, (LinearForm.mem_support (h.rhs_wellFormed row hrow)).mp hv⟩
    · rintro (⟨row, hrow, rfl⟩ | ⟨row, hrow, hv⟩)
      · exact ⟨row, hrow, .inl rfl⟩
      · exact ⟨row, hrow, .inr ((LinearForm.mem_support (h.rhs_wellFormed row hrow)).mpr hv)⟩
  have hnone : ¬({} : Table Unit).contains v := by simp [Table.contains, Table.get?]
  unfold mentioned
  rw [← Table.contains_iff (Table.foldl_insert_unit .. ▸ Table.sorted_foldl_insert hempty _),
    Table.contains_foldl_insert hempty, or_iff_left hnone, List.mem_append, List.mem_flatMap,
    ← Table.contains_iff h.solved_sorted, Mentions, knows, Bool.or_eq_true, or_assoc, ← hsupport]
  simp only [List.mem_cons]

theorem mentions_iff_rule? (h : store.WellFormed) :
    store.Mentions w ↔ ∃ v q, store.rule? v = some q ∧ (w = v ∨ q.mentions w) := by
  constructor
  · rintro (hk | ⟨row, hrow, hm⟩)
    · obtain ⟨q, hq⟩ := Option.isSome_iff_exists.mp (knows_eq_isSome_rule? store w ▸ hk)
      exact ⟨w, q, hq, .inl rfl⟩
    · exact ⟨row.1, row.2, rule?_of_mem_dependents h hrow, .inr hm⟩
  · rintro ⟨v, q, hq, rfl | hm⟩
    · exact .inl (knows_of_rule? hq)
    · rcases mem_of_rule? h hq with ⟨c, -, rfl⟩ | hrhs
      · exact absurd hm (LinearForm.not_mentions_of_isConstant (.ofConstant c) rfl)
      · exact .inr ⟨_, hrhs, hm⟩

theorem Mentions.of_forget (h : store.WellFormed) (hw : (store.forget v).Mentions w) :
    store.Mentions w := by
  obtain ⟨u, q, hq, hmw⟩ := (mentions_iff_rule? (h.forget v)).mp hw
  rw [rule?_forget h] at hq
  split at hq
  · cases hq
  · exact (mentions_iff_rule? h).mpr ⟨u, q, hq, hmw⟩

theorem Mentions.of_retire (h : store.WellFormed) (hw : (store.retire eps v).Mentions w) :
    w ≠ v ∧ store.Mentions w := by
  obtain ⟨hv, hrhs⟩ := not_mentions_retire h eps v
  have hne : w ≠ v := by
    rintro rfl
    rcases hw with hk | ⟨row, hrow, hm⟩
    · exact Bool.false_ne_true (hv ▸ hk)
    · exact hrhs row hrow hm
  refine ⟨hne, ?_⟩
  cases hholder : store.holder? v with
  | none =>
    rw [retire_of_holder?_eq_none h hholder] at hw
    exact hw.of_forget h
  | some rule =>
    obtain ⟨y, holder⟩ := rule
    obtain ⟨hmem, -⟩ := mem_of_holder? hholder
    obtain ⟨-, hadmits⟩ := Admits.invert h (not_knows_of_holder? h hholder) hholder
    have hky := knows_of_mem_dependents h.dependents_sorted hmem
    obtain ⟨u, q', hq', hmw⟩ := (mentions_iff_rule? (h.retire eps v)).mp hw
    rw [rule?_retire h hholder] at hq'
    split at hq'
    · cases hq'
    obtain ⟨q, hq, rfl⟩ := Option.map_eq_some_iff.mp hq'
    rcases hmw with rfl | hmw
    · exact .inl (knows_of_rule? hq)
    -- a variable of a new right-hand side comes from the old one, the holder, or is `y`
    rcases LinearForm.mentions_of_mentions_inline (wellFormed_of_rule? h hq) hadmits.wellFormed hmw
      with ⟨-, hmw⟩ | hmw
    · exact (mentions_iff_rule? h).mpr ⟨u, q, hq, .inr hmw⟩
    · rcases LinearForm.mentions_of_mentions_invert (h.rhs_wellFormed _ hmem)
        (ne_constant_of_knows h hky) hadmits.ne_constant hmw with rfl | ⟨-, hmw⟩
      · exact .inl hky
      · exact .inr ⟨_, hmem, hmw⟩

theorem Mentions.of_retireAll (h : store.WellFormed) (hw : (store.retireAll eps vs).Mentions w) :
    w ∉ vs ∧ store.Mentions w := by
  induction vs generalizing store with
  | nil => exact ⟨List.not_mem_nil, hw⟩
  | cons v vs ih =>
    obtain ⟨hvs, hw⟩ := ih (h.retire eps v) hw
    obtain ⟨hne, hw⟩ := hw.of_retire h
    exact ⟨fun hmem => (List.mem_cons.mp hmem).elim hne hvs, hw⟩

/-- The store mentions no variable that is reported as retired. -/
def Purged (store : Store) (setting : Setting) : Prop :=
  ∀ v, setting.isRetired v = true → ¬store.Mentions v

/-- The store after all that is reported as retired has retired. -/
def purge (store : Store) (setting : Setting) : Store :=
  store.retireAll setting.threshold (store.mentioned.filter setting.isRetired)

theorem WellFormed.purge (h : store.WellFormed) (setting : Setting) :
    (store.purge setting).WellFormed :=
  h.retireAll ..

theorem purged_purge (h : store.WellFormed) (setting : Setting) :
    (store.purge setting).Purged setting := by
  intro v hv hm
  obtain ⟨hmem, hm⟩ := hm.of_retireAll h
  exact hmem (List.mem_filter.mpr ⟨(mem_mentioned h).mpr hm, hv⟩)

theorem Purged.filter_mentioned (h : store.WellFormed) (hpurged : store.Purged setting) :
    store.mentioned.filter setting.isRetired = [] :=
  List.filter_eq_nil_iff.mpr fun v hv hretired => hpurged v hretired ((mem_mentioned h).mp hv)

end Store

/-! ### Retiring what the host reports -/

namespace Progress

variable {progress : Progress}

theorem exists_retireReported_purge (setting : Setting) (h : progress.store.WellFormed) :
    ∃ progress', progress.retireReported setting = .ok progress' ∧
      progress'.store = progress.store.purge setting := by
  by_cases hhost : setting.host = none
  · have hnone : progress.store.mentioned.filter setting.isRetired = [] :=
      List.filter_eq_nil_iff.mpr fun v _ => by simp [Setting.isRetired_of_host_none hhost]
    rw [Store.purge, hnone]
    exact ⟨progress, retireReported_of_none (Setting.isRetired_of_host_none hhost), rfl⟩
  · obtain ⟨progress', hretire, hstore, -⟩ := exists_retireAll_heard h hhost
      (progress.store.mentioned.filter setting.isRetired)
    exact ⟨progress', hretire, hstore⟩

theorem retireReported_of_purged (h : progress.store.WellFormed)
    (hpurged : progress.store.Purged setting) : progress.retireReported setting = .ok progress := by
  rw [retireReported, hpurged.filter_mentioned h]
  rfl

theorem exists_finish_purge (setting : Setting) (h : progress.store.WellFormed) :
    ∃ progress', progress.finish setting = .ok progress' ∧
      progress'.store = progress.store.purge setting := by
  obtain ⟨last, hlast, hstore⟩ := exists_retireReported_purge setting h
  exact ⟨_, finish_of_retireReported hlast, hstore⟩

end Progress

namespace Solver

variable {solver : Solver} {p : LinearForm} {ps : List LinearForm} {attempt : Attempt}
  {outcome : Outcome} {settings : Nat → Setting} {later : Setting}

theorem exists_retireReported_purge (h : solver.store.WellFormed) :
    ∃ outcome, solver.retireReported = .ok outcome ∧
      outcome.solver = { solver with store := solver.store.purge solver.toSetting } := by
  have hprogress : solver.progress.store.WellFormed := h
  obtain ⟨last, hlast, hstore⟩ :=
    Progress.exists_retireReported_purge solver.toSetting hprogress
  rw [retireReported, hlast]
  exact ⟨_, rfl, congrArg (Solver.mk solver.toSetting) hstore⟩

theorem exists_add_purge (h : attempt.store.WellFormed)
    (hassert : solver.progress.assert solver.toSetting p = .ok attempt)
    (haccepted : attempt.verdict = .ok ()) :
    ∃ outcome, solver.add p later = .ok outcome ∧ outcome.verdict = .ok () ∧
      outcome.solver = { solver with store := attempt.store.purge later } := by
  obtain ⟨last, hfinish, hstore⟩ := Progress.exists_finish_purge later h
  exact ⟨_, add_of_accepted hassert haccepted hfinish, rfl,
    congrArg (Solver.mk solver.toSetting) hstore⟩

theorem exists_addAll_purge (h : attempt.store.WellFormed)
    (hassert : solver.progress.assertAll settings 0 ps = .ok attempt) :
    ∃ outcome, solver.addAll ps settings later = .ok outcome ∧ outcome.verdict = attempt.verdict ∧
      outcome.solver = { solver with store := attempt.store.purge later } := by
  obtain ⟨last, hfinish, hstore⟩ := Progress.exists_finish_purge later h
  exact ⟨_, addAll_of_finish hassert hfinish, rfl, congrArg (Solver.mk solver.toSetting) hstore⟩

/-- How a call that adds an equation ends: it keeps the store if the assertion is rejected, and
purges it, of what is reported by then, if not. -/
inductive Added (solver : Solver) (p : LinearForm) (later : Setting) (outcome : Outcome) : Prop where
  | rejected {attempt : Attempt}
    (asserted : Progress.Asserted solver.toSetting solver.progress p attempt)
    (verdict : attempt.verdict ≠ .ok ())
    (outcome_eq : outcome = solver.outcome attempt.toProgress attempt.verdict)
  | accepted {attempt : Attempt}
    (asserted : Progress.Asserted solver.toSetting solver.progress p attempt)
    (verdict : attempt.verdict = .ok ()) (outcome_verdict : outcome.verdict = .ok ())
    (solver_eq : outcome.solver = { solver with store := attempt.store.purge later })

theorem exists_added (h : solver.store.WellFormed) (hp : p.WellFormed) :
    ∃ outcome, solver.add p later = .ok outcome ∧ solver.Added p later outcome := by
  have hprogress : solver.progress.store.WellFormed := h
  obtain ⟨attempt, hassert, ha⟩ := Progress.exists_assert solver.toSetting hprogress hp
  cases hverdict : attempt.verdict with
  | error rejection =>
    refine ⟨_, add_of_rejected hassert hverdict, .rejected ha ?_ rfl⟩
    rw [hverdict]
    exact nofun
  | ok =>
    obtain ⟨outcome, hadd, haccepted, hsolver⟩ :=
      exists_add_purge (ha.wellFormed hprogress hp) hassert hverdict
    exact ⟨outcome, hadd, .accepted ha hverdict haccepted hsolver⟩

theorem added_of_add (h : solver.store.WellFormed) (hp : p.WellFormed)
    (hadd : solver.add p later = .ok outcome) : solver.Added p later outcome := by
  obtain ⟨outcome', hadd', hadded⟩ := exists_added h hp
  cases hadd.symm.trans hadd'
  exact hadded

/-- Nothing is left of the variables that the host reports as retired, and it has nothing to hear of
them. -/
structure Purged (solver : Solver) : Prop where
  not_solved : ∀ v, solver.isRetired v = true → solver.isSolved v = false
  not_dependent : ∀ v, solver.isRetired v = true → solver.isDependent v = false
  not_mentioned : ∀ v, solver.isRetired v = true →
    ∀ row ∈ solver.store.dependents.toList, row.2.mentions v = false
  retireReported : solver.retireReported = .ok { solver }

theorem purged_of_store (h : solver.store.WellFormed)
    (hpurged : solver.store.Purged solver.toSetting) : solver.Purged := by
  have hknows : ∀ v, solver.isRetired v = true →
      solver.isSolved v = false ∧ solver.isDependent v = false := fun v hv =>
    Bool.or_eq_false_iff.mp (Bool.eq_false_iff.mpr fun hk => hpurged v hv (.inl hk))
  refine ⟨fun v hv => (hknows v hv).1, fun v hv => (hknows v hv).2, fun v hv row hrow => ?_, ?_⟩
  · exact Bool.eq_false_iff.mpr fun hm => hpurged v hv (.inr ⟨row, hrow, hm⟩)
  · have hprogress : solver.progress.store.WellFormed := h
    rw [Solver.retireReported, Progress.retireReported_of_purged hprogress hpurged]
    rfl

theorem purged_purge {store : Store} (h : store.WellFormed) (setting : Setting) :
    (Solver.mk setting (store.purge setting)).Purged :=
  purged_of_store (h.purge setting) (Store.purged_purge h setting)

theorem purged_add (h : solver.store.WellFormed) (hp : p.WellFormed)
    (hadd : solver.add p = .ok outcome) (hverdict : outcome.verdict = .ok ()) :
    outcome.solver.Purged := by
  have hprogress : solver.progress.store.WellFormed := h
  cases added_of_add h hp hadd with
  | rejected _ hrejected outcome_eq =>
    subst outcome
    exact absurd hverdict hrejected
  | accepted ha _ _ solver_eq =>
    rw [solver_eq]
    exact purged_purge (ha.wellFormed hprogress hp) _

end Solver

namespace Run

/-- Whatever the threshold and however many variables retire at once: when a call has retired what
the host reports, nothing is left to retire. -/
theorem purged_of_calls (setting : Setting) {calls : List Call}
    (hcalls : ∀ call ∈ calls, call.WellFormed) :
    ∃ run, (start setting).calls calls = .ok run ∧
      (∃ outcome, run.solver.retireReported = .ok outcome ∧
        outcome.solver.toSetting = run.solver.toSetting ∧ outcome.solver.Purged) ∧
      (∀ p, p.WellFormed → ∃ outcome, run.solver.add p = .ok outcome ∧
        outcome.solver.toSetting = run.solver.toSetting ∧
        (outcome.verdict = .ok () → outcome.solver.Purged)) ∧
      ∀ ps, (∀ p ∈ ps, p.WellFormed) → ∃ outcome, run.solver.addAll ps = .ok outcome ∧
        outcome.solver.toSetting = run.solver.toSetting ∧ outcome.solver.Purged := by
  obtain ⟨run, hrun, h⟩ := exists_calls (start setting) Store.wellFormed_empty hcalls
  refine ⟨run, hrun, ?_, fun p hp => ?_, fun ps hps => ?_⟩
  · obtain ⟨outcome, hretire, hsolver⟩ := Solver.exists_retireReported_purge h
    refine ⟨outcome, hretire, ?_⟩
    rw [hsolver]
    exact ⟨rfl, Solver.purged_purge h _⟩
  · obtain ⟨outcome, hadd, hsetting, -⟩ := Solver.exists_add h hp
    exact ⟨outcome, hadd, hsetting, Solver.purged_add h hp hadd⟩
  · have hprogress : run.solver.progress.store.WellFormed := h
    obtain ⟨attempt, hassert, hwf, -⟩ := Progress.exists_assertAll hprogress 0 ps hps
    obtain ⟨outcome, hadd, -, hsolver⟩ := Solver.exists_addAll_purge hwf hassert
    refine ⟨outcome, hadd, ?_⟩
    rw [hsolver]
    exact ⟨rfl, Solver.purged_purge hwf _⟩

/-- As `x₃` and `x₄` retire together, `x₂ = x₄/100000` is first expressed in `x₁`, and the batch
ends at a contradiction. -/
theorem purged_of_calls_reporting :
    ∃ run, (start {}).calls [.attach { nameOf := Var.genericName },
        .addAll [.ofTerms 0 [(1, 1), (3, -1), (4, -1)], .ofTerms (-3) [(5, 1)]],
        .add (.ofTerms 0 [(2, 1), (4, -1 / 100000)]),
        .report fun v => v == 3 || v == 4 || v == 5] = .ok run ∧
      (∃ outcome, run.solver.retireReported = .ok outcome ∧ outcome.solver.Purged) ∧
      (∃ outcome, run.solver.add (.ofTerms 0 [(6, 1), (4, -1)]) = .ok outcome ∧
        outcome.verdict = .ok () ∧ outcome.solver.Purged) ∧
      ∃ outcome, run.solver.addAll [.ofTerms 0 [(6, 1), (4, -1)], .ofTerms (-4) [(5, 1)]] =
          .ok outcome ∧ outcome.verdict = .error (.inconsistent (-1)) ∧ outcome.solver.Purged := by
  refine (purged_of_calls {} ?_).imp fun run h => ⟨h.1, ?_⟩
  · simp [Call.WellFormed, LinearForm.WellFormed.ofTerms]
  obtain ⟨hrun, ⟨retired, hretire, -, hretired⟩, hadd, haddAll⟩ := h
  obtain ⟨added, hadd, -, hadded⟩ := hadd (.ofTerms 0 [(6, 1), (4, -1)]) (.ofTerms ..)
  obtain ⟨batch, hbatch, -, hpurged⟩ :=
    haddAll [.ofTerms 0 [(6, 1), (4, -1)], .ofTerms (-4) [(5, 1)]]
      (by simp [LinearForm.WellFormed.ofTerms])
  have hverdicts := apply_eq_of_map_eq_ok
    (b := (.ok (.ok ()), .ok (.error (.inconsistent (-1)))))
    (f := fun run : Run => ((run.solver.add (.ofTerms 0 [(6, 1), (4, -1)])).map Outcome.verdict,
      (run.solver.addAll [.ofTerms 0 [(6, 1), (4, -1)], .ofTerms (-4) [(5, 1)]]).map
        Outcome.verdict)) hrun (by decide +kernel)
  rw [hadd, hbatch] at hverdicts
  obtain ⟨hadd', hbatch'⟩ := Prod.mk.inj hverdicts
  have hverdict := Except.ok.inj hadd'
  exact ⟨⟨retired, hretire, hretired⟩, ⟨added, hadd, hverdict, hadded hverdict⟩,
    batch, hbatch, Except.ok.inj hbatch', hpurged⟩

end Run

end SolvedForm
