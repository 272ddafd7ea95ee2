import SolvedForm.Proofs.Solver.Growth
import SolvedForm.Proofs.Solver.Pivot

/-!
# The order in which the host hears of solutions

A new rule is propagated breadth first, but one round is all there is: right-hand sides mention no
dependent variable, so the variables that collapse in it are mentioned nowhere. The host therefore
hears of the pivot, if its value was found, and then of the collapsing dependencies in ascending
order (`Store.cascade_addRule`, `Attempt.Announces`), before it hears of anything that retires.
-/

namespace SolvedForm

variable {store : Store} {p q rhs : LinearForm} {v w : Var} {c eps : Rat}

namespace Store

/-- As `v = rhs` becomes a rule of `store` and makes `next` of it, the dependencies `rows` collapse
to constants, in this order. -/
structure Cascade (store next : Store) (eps : Rat) (v : Var) (rhs : LinearForm)
    (rows : List (Var × Rat)) : Prop where
  ascending : rows.Pairwise fun a b => a.1 < b.1
  /-- Their right-hand sides are flushed to constants once `v` is replaced in them. -/
  collapsed_iff : ∀ w c, (w, c) ∈ rows ↔ ∃ old new, store.dependents.get? w = some old ∧
    old.mentions v ∧ old.substitute v rhs = .ok new ∧ (new.flush eps).value? = some c
  /-- They are the former dependencies that are solved now. -/
  solved_iff : ∀ w c, (w, c) ∈ rows ↔
    store.dependents.contains w = true ∧ next.solved.get? w = some c

theorem determined_eq (hvalid : rhs.valid) :
    store.determined eps v rhs = (rhs.value?.map fun c => (v, c)).toList ++
      (Sweep.ofRows eps v rhs store.dependents.toList).collapsed := by
  unfold determined
  cases hvalue : rhs.value? with
  | none => rfl
  | some c =>
    rw [LinearForm.eq_ofConstant_of_value? hvalid hvalue]
    rfl

theorem contains_of_mem_collapsed (h : store.WellFormed) {row : Var × Rat}
    (hrow : row ∈ (Sweep.ofRows eps v rhs store.dependents.toList).collapsed) :
    store.dependents.contains row.1 = true := by
  obtain ⟨old, hold, -⟩ := Sweep.mem_collapsed_ofRows.mp hrow
  exact Table.contains_of_mem h.dependents_sorted hold

theorem mem_determined_iff_of_contains (hvalid : rhs.valid) (hfree : store.knows v = false)
    (hw : store.dependents.contains w = true) :
    (w, c) ∈ store.determined eps v rhs ↔
      (w, c) ∈ (Sweep.ofRows eps v rhs store.dependents.toList).collapsed := by
  rw [determined_eq hvalid, List.mem_append, or_iff_right]
  intro hpivot
  obtain ⟨c', -, heq⟩ := Option.map_eq_some_iff.mp (Option.mem_toList.mp hpivot)
  cases heq
  exact contains_dependents_of_not_knows hfree hw

theorem cascade_addRule (h : store.WellFormed) (hrhs : store.Admits v rhs)
    (hfree : store.knows v = false) :
    store.Cascade (store.addRule eps v rhs) eps v rhs
      (Sweep.ofRows eps v rhs store.dependents.toList).collapsed where
  ascending := (h.but (contains_dependents_of_not_knows hfree)).pairwise_collapsed
  collapsed_iff := fun w c => by
    rw [Sweep.mem_collapsed_iff h.rhs_not_constant]
    simp only [Table.get?_eq_some_iff h.dependents_sorted,
      LinearForm.substitute_eq_ok hrhs.ne_constant hrhs.not_mentions, Except.ok.injEq,
      exists_eq_left', exists_and_left]
  solved_iff := fun w c => by
    rw [Table.get?_eq_some_iff (h.addRule hrhs hfree).solved_sorted,
      mem_solved_addRule h hrhs hfree]
    constructor
    · intro hrow
      have hw := contains_of_mem_collapsed h hrow
      exact ⟨hw, .inl ((mem_determined_iff_of_contains hrhs.valid hfree hw).mpr hrow)⟩
    · rintro ⟨hw, hrow | hsolved⟩
      · exact (mem_determined_iff_of_contains hrhs.valid hfree hw).mp hrow
      · exact absurd ⟨hw, Table.contains_of_mem h.solved_sorted hsolved⟩ (h.disjoint w)

theorem nodup_determined (h : store.WellFormed) (hrhs : store.Admits v rhs)
    (hfree : store.knows v = false) : ((store.determined eps v rhs).map Prod.fst).Nodup := by
  have hv := contains_dependents_of_not_knows hfree
  have hcollapsed : ((Sweep.ofRows eps v rhs store.dependents.toList).collapsed.map
      Prod.fst).Nodup :=
    List.pairwise_map.mpr ((h.but hv).pairwise_collapsed.imp Nat.ne_of_lt)
  rw [determined_eq hrhs.valid, List.map_append]
  cases rhs.value? with
  | none => exact hcollapsed
  | some c =>
    refine List.nodup_cons.mpr ⟨fun hmem => ?_, hcollapsed⟩
    obtain ⟨row, hrow, rfl⟩ := List.mem_map.mp hmem
    exact hv (contains_of_mem_collapsed h hrow)

theorem not_solved_of_mem_determined (h : store.WellFormed) (hrhs : store.Admits v rhs)
    (hfree : store.knows v = false) {row : Var × Rat}
    (hrow : row ∈ store.determined eps v rhs) : store.solved.contains row.1 = false := by
  rw [determined_eq hrhs.valid, List.mem_append] at hrow
  rcases hrow with hpivot | hcollapsed
  · obtain ⟨c, -, rfl⟩ := Option.map_eq_some_iff.mp (Option.mem_toList.mp hpivot)
    exact (Bool.or_eq_false_iff.mp hfree).1
  · have hw := contains_of_mem_collapsed h hcollapsed
    exact Bool.eq_false_iff.mpr fun hs => h.disjoint row.1 ⟨hw, hs⟩

end Store

/-- The host hears of the attempt, which made the rule `v = rhs`: first of `v`, if its value was
found, and then of the dependencies that collapsed. -/
structure Attempt.Announces (attempt : Attempt) (solver : Solver) (v : Var) (rhs : LinearForm) :
    Prop where
  rule : attempt.store.rule? v = some rhs
  order : ∃ rows, solver.store.Cascade attempt.store solver.threshold v rhs rows ∧
    attempt.notifications = (rhs.value?.map fun c => (v, c)).toList ++ rows
  nodup : (attempt.notifications.map Prod.fst).Nodup
  /-- The values are new, and those that are in the store now. -/
  solved : ∀ row ∈ attempt.notifications,
    solver.isSolved row.1 = false ∧ attempt.store.solved.get? row.1 = some row.2

/-- The call ends with the attempt, or if it is accepted with what retires after it. -/
structure Outcome.Completes (outcome : Outcome) (solver : Solver) (attempt : Attempt) : Prop where
  verdict : outcome.verdict = attempt.verdict
  accepted : attempt.verdict = .ok () → ∃ last,
    Progress.finish solver.toSetting { store := attempt.store } = .ok last ∧
    outcome.notifications = attempt.notifications ++ last.notifications
  rejected : attempt.verdict ≠ .ok () → outcome.notifications = attempt.notifications

namespace Solver

variable {solver : Solver} {attempt : Attempt}

theorem exists_add_completes (h : attempt.store.WellFormed)
    (hassert : solver.progress.assert solver.toSetting p = .ok attempt) :
    ∃ outcome, solver.add p = .ok outcome ∧ outcome.Completes solver attempt := by
  cases hverdict : attempt.verdict with
  | error rejection =>
    refine ⟨_, add_of_rejected hassert hverdict, rfl, fun hok => ?_, fun _ => rfl⟩
    cases hverdict.symm.trans hok
  | ok =>
    have hfresh : ({ store := attempt.store } : Progress).store.WellFormed := h
    obtain ⟨last, hlast, -⟩ := Progress.exists_finish solver.toSetting hfresh
    refine ⟨_, add_of_accepted hassert hverdict (Progress.finish_of_fresh hlast), hverdict.symm,
      fun _ => ⟨last, hlast, ?_⟩, fun hrejected => absurd hverdict hrejected⟩
    exact Progress.notifications_following ..

theorem announces_withRule (h : solver.store.WellFormed) (hhost : solver.host ≠ none)
    (hrhs : solver.store.Admits v rhs) (hfree : solver.store.knows v = false) {progress : Progress}
    (hstore : progress.store = solver.store) (hsilent : progress.notifications = []) :
    (progress.withRule solver.toSetting v rhs).accept.Announces solver v rhs := by
  have hstore' : (progress.withRule solver.toSetting v rhs).accept.store =
      solver.store.addRule solver.threshold v rhs := by
    rw [Progress.accept, Progress.store_withRule, hstore]
  have hnotes : (progress.withRule solver.toSetting v rhs).accept.notifications =
      solver.store.determined solver.threshold v rhs := by
    rw [Progress.accept, Progress.notifications_withRule hhost, hstore, hsilent, List.nil_append]
  let rows := (Sweep.ofRows solver.threshold v rhs solver.store.dependents.toList).collapsed
  refine ⟨?_, ⟨rows, ?_, ?_⟩, ?_, fun row hrow => ?_⟩
  · rw [hstore']
    exact Store.rule?_addRule h hrhs hfree
  · rw [hstore']
    exact Store.cascade_addRule h hrhs hfree
  · rw [hnotes, Store.determined_eq hrhs.valid]
  · rw [hnotes]
    exact Store.nodup_determined h hrhs hfree
  · rw [hnotes] at hrow
    refine ⟨Store.not_solved_of_mem_determined h hrhs hfree hrow, ?_⟩
    rw [hstore', Table.get?_eq_some_iff (h.addRule hrhs hfree).solved_sorted]
    exact (Store.mem_solved_addRule h hrhs hfree).mpr (.inl hrow)

end Solver

namespace Run

/-- The host hears of an equation what its new rule determines: the value of the pivot, if it was
found, and then those of the dependencies that collapse, in ascending order. Only then it hears of
what retires. -/
theorem announces_of_calls (setting : Setting) {calls : List Call}
    (hcalls : ∀ call ∈ calls, call.WellFormed) :
    ∃ run, (start setting).calls calls = .ok run ∧ ∀ p, p.WellFormed → p.valid →
      ∃ q attempt outcome, run.solver.store.reduce run.solver.threshold p = .ok q ∧
        run.solver.progress.assert run.solver.toSetting p = .ok attempt ∧
        run.solver.add p = .ok outcome ∧ outcome.Completes run.solver attempt ∧
        (run.solver.host = none ∨ q.isConstant → attempt.notifications = []) ∧
        (run.solver.host ≠ none → ¬q.isConstant →
          ∃ v rhs, run.solver.PivotsOn q v ∧ attempt.Announces run.solver v rhs) := by
  obtain ⟨run, hrun, h⟩ := exists_calls (start setting) Store.wellFormed_empty hcalls
  refine ⟨run, hrun, fun p hp hvalid => ?_⟩
  have hprogress : run.solver.progress.store.WellFormed := h
  obtain ⟨q, hq, hexp⟩ := Store.exists_expand h hp
  obtain ⟨attempt, hassert, ha⟩ := Progress.exists_assert run.solver.toSetting hprogress hp
  obtain ⟨outcome, hadd, hcompletes⟩ :=
    Solver.exists_add_completes (ha.wellFormed hprogress hp) hassert
  refine ⟨_, attempt, outcome, Store.reduce_of_expand hq _, hassert, hadd, hcompletes, ?_⟩
  cases ha with
  | noHost host => exact ⟨fun _ => rfl, fun hhost => absurd host hhost⟩
  | invalid _ invalid => exact absurd hvalid (Bool.eq_false_iff.mp invalid)
  | redundant _ _ expand value | inconsistent _ _ expand _ value =>
    cases hq.symm.trans expand
    exact ⟨fun _ => rfl, fun _ hconst => absurd (LinearForm.value?_eq_some_iff.mp value).1 hconst⟩
  | solved host _ expand pivot =>
    cases hq.symm.trans expand
    obtain ⟨-, hfree, hadmits⟩ := Store.admits_of_pivot? h hp hvalid hq pivot
    refine ⟨fun hnone => ?_, fun _ _ => ?_⟩
    · rcases hnone with hnone | hconst
      · exact absurd hnone host
      · exact absurd hconst (Setting.not_isConstant_of_pivot? pivot)
    · have hq' := hexp.wellFormed.flush run.solver.threshold
      have hon := Solver.pivotsOn_of_pivot? hq' (fun w => hexp.not_knows) pivot
      exact ⟨_, _, hon, Solver.announces_withRule h host hadmits hfree rfl rfl⟩

/-- `x₅ = 3` solves three dependencies along with it, one of them with the value zero, while
`x₆ = 7 + x₇` stays open and solves `x₄ = x₆ - x₇` all the same. -/
theorem announces_of_calls_collapsing :
    ∃ run, (start {}).calls [.attach { nameOf := Var.genericName },
        .addAll [.ofTerms 0 [(4, 1), (6, -1), (7, 1)], .ofTerms 0 [(3, 2), (5, -1)],
          .ofTerms 0 [(2, 1), (5, -1)], .ofTerms 3 [(1, 1), (5, -1)]]] = .ok run ∧
      (∃ attempt rhs, run.solver.progress.assert run.solver.toSetting (.ofTerms (-3) [(5, 1)]) =
          .ok attempt ∧ attempt.Announces run.solver 5 rhs ∧
        attempt.notifications = [(5, 3), (1, 0), (2, 3), (3, 3 / 2)]) ∧
      ∃ attempt rhs, run.solver.progress.assert run.solver.toSetting
          (.ofTerms (-7) [(6, 1), (7, -1)]) = .ok attempt ∧ attempt.Announces run.solver 6 rhs ∧
        attempt.notifications = [(4, 7)] := by
  refine (announces_of_calls {} ?_).imp fun run h => ⟨h.1, ?_⟩
  · simp [Call.WellFormed, LinearForm.WellFormed.ofTerms]
  obtain ⟨hrun, hannounces⟩ := h
  obtain ⟨q, attempt, -, hq, hassert, -, -, -, htold⟩ :=
    hannounces (.ofTerms (-3) [(5, 1)]) (.ofTerms ..) (LinearForm.valid_ofTerms ..)
  obtain ⟨q', attempt', -, hq', hassert', -, -, -, htold'⟩ :=
    hannounces (.ofTerms (-7) [(6, 1), (7, -1)]) (.ofTerms ..) (LinearForm.valid_ofTerms ..)
  have hreduced := apply_eq_of_map_eq_ok
    (b := (true, .ok (.ofTerms (-3) [(5, 1)]), .ok (.ofTerms (-7) [(6, 1), (7, -1)])))
    (f := fun run : Run => (run.solver.host.isSome,
      run.solver.store.reduce run.solver.threshold (.ofTerms (-3) [(5, 1)]),
      run.solver.store.reduce run.solver.threshold (.ofTerms (-7) [(6, 1), (7, -1)])))
    hrun (by decide +kernel)
  have hpivots := apply_eq_of_map_eq_ok (b := (some (5, 1), some (6, 1)))
    (f := fun run : Run => (run.solver.pivot? run.solver.store (.ofTerms (-3) [(5, 1)]),
      run.solver.pivot? run.solver.store (.ofTerms (-7) [(6, 1), (7, -1)])))
    hrun (by decide +kernel)
  have htelling := apply_eq_of_map_eq_ok
    (b := (.ok [(5, 3), (1, 0), (2, 3), (3, 3 / 2)], .ok [(4, 7)]))
    (f := fun run : Run =>
      ((run.solver.progress.assert run.solver.toSetting (.ofTerms (-3) [(5, 1)])).map
          fun attempt => attempt.notifications,
        (run.solver.progress.assert run.solver.toSetting (.ofTerms (-7) [(6, 1), (7, -1)])).map
          fun attempt => attempt.notifications)) hrun (by decide +kernel)
  simp only [hq, hq', Prod.mk.injEq, Except.ok.injEq] at hreduced
  simp only [hassert, hassert', Except.map, Prod.mk.injEq, Except.ok.injEq] at htelling
  obtain ⟨hhost, rfl, rfl⟩ := hreduced
  obtain ⟨hpivot, hpivot'⟩ := Prod.mk.inj hpivots
  obtain ⟨hnotes, hnotes'⟩ := htelling
  have hhost := Option.isSome_iff_ne_none.mp hhost
  obtain ⟨v, rhs, hon, hfirst⟩ := htold hhost (by decide +kernel)
  obtain ⟨v', rhs', hon', hsecond⟩ := htold' hhost (by decide +kernel)
  obtain ⟨rfl, -⟩ := Prod.mk.inj (Option.some.inj (hon.pivot.symm.trans hpivot))
  obtain ⟨rfl, -⟩ := Prod.mk.inj (Option.some.inj (hon'.pivot.symm.trans hpivot'))
  exact ⟨⟨attempt, rhs, hassert, hfirst, hnotes⟩, attempt', rhs', hassert', hsecond, hnotes'⟩

end Run

end SolvedForm
