import SolvedForm.Proofs.Store.Equivalence
import SolvedForm.Proofs.Solver.Repetition
import SolvedForm.Proofs.Solver.Forgetting

/-!
# Knowledge grows by one variable at a time

The new rule `v = rhs` determines `v`, if `rhs` is constant, and the dependent variables whose
right-hand side it empties (`store.determined`). These become solutions and no others
(`mem_solved_addRule`). All that was known stays known, and `v` is all that is known anew
(`known_addRule`). So an accepted equation either changes nothing or makes the store know one
variable more (`Store.Grows`, `Run.grows_of_calls`).
-/

namespace SolvedForm

variable {store : Store} {p rhs : LinearForm} {v : Var} {eps : Rat}

namespace Store

/-- The variables that the new rule `v = rhs` determines and their values, in the order in which
they are found. -/
def determined (store : Store) (eps : Rat) (v : Var) (rhs : LinearForm) : List (Var × Rat) :=
  match rhs.value? with
  | some c =>
    (v, c) :: (Sweep.ofRows eps v (LinearForm.ofConstant c) store.dependents.toList).collapsed
  | none => (Sweep.ofRows eps v rhs store.dependents.toList).collapsed

theorem mem_solved_addRule (h : store.WellFormed) (hrhs : store.Admits v rhs)
    (hfree : store.knows v = false) {row : Var × Rat} :
    row ∈ (store.addRule eps v rhs).solved.toList ↔
      row ∈ store.determined eps v rhs ∨ row ∈ store.solved.toList := by
  unfold addRule determined
  cases rhs.value? with
  | some c =>
    have hbut := h.setSolved hrhs.ne_constant hfree c
    have hsolved : row ∈ (store.setSolved v c).solved.toList ↔
        row = (v, c) ∨ row ∈ store.solved.toList := by
      rw [setSolved, Table.mem_toList_insert h.solved_sorted,
        and_iff_left_of_imp (ne_of_mem_solved h.solved_sorted hfree)]
    dsimp only
    rw [hbut.mem_solved_inline, ← Sweep.mem_collapsed_ofRows, hsolved, List.mem_cons, or_left_comm,
      or_assoc]
    rfl
  | none =>
    have hbut := h.but (contains_dependents_of_not_knows hfree)
    exact hbut.mem_solved_inline.trans (or_congr_left Sweep.mem_collapsed_ofRows.symm)

theorem known_addRule (h : store.WellFormed) (hrhs : store.Admits v rhs)
    (hfree : store.knows v = false) :
    (store.addRule eps v rhs).known = insert v store.known := by
  ext w
  rw [mem_known (h.addRule hrhs hfree), Finset.mem_insert, mem_known h, knows_addRule h hrhs hfree]

end Store

theorem Progress.notifications_withRule {setting : Setting} {progress : Progress}
    (hhost : setting.host ≠ none) (v : Var) (rhs : LinearForm) :
    (progress.withRule setting v rhs).notifications =
      progress.notifications ++ progress.store.determined setting.threshold v rhs := by
  unfold withRule Store.determined
  cases rhs.value? with
  | some c =>
    dsimp only
    rw [notifications_inline hhost, notifications_learn hhost, List.append_assoc]
    rfl
  | none =>
    show (Progress.inline ..).notifications = _
    rw [notifications_inline hhost, notifications_record rfl]
    rfl

namespace Store

/-- The store `next` knows what `store` does, and one variable more. -/
structure Grows (store next : Store) : Prop where
  /-- A solution stays as it is. -/
  solved : ∀ v c, store.solved.get? v = some c → next.solved.get? v = some c
  /-- A dependent variable may have become a solved one. -/
  dependent : ∀ v, store.dependents.contains v = true →
    next.dependents.contains v = true ∨ next.solved.contains v = true
  existsUnique_new : ∃! v, store.knows v = false ∧ next.knows v = true
  size : next.solved.size + next.dependents.size =
    store.solved.size + store.dependents.size + 1

theorem WellFormed.grows_addRule (h : store.WellFormed) (hrhs : store.Admits v rhs)
    (hfree : store.knows v = false) : store.Grows (store.addRule eps v rhs) where
  solved := fun w c hc => by
    rw [Table.get?_eq_some_iff h.solved_sorted] at hc
    rw [Table.get?_eq_some_iff (h.addRule hrhs hfree).solved_sorted]
    exact (mem_solved_addRule h hrhs hfree).mpr (.inr hc)
  dependent := fun w hw => by
    have hk : store.knows w = true := by rw [knows, hw, Bool.or_true]
    have hk' : (store.addRule eps v rhs).knows w = true :=
      (knows_addRule h hrhs hfree).mpr (.inr hk)
    rw [knows, Bool.or_eq_true] at hk'
    exact hk'.symm
  existsUnique_new := by
    refine ⟨v, ⟨hfree, (knows_addRule h hrhs hfree).mpr (.inl rfl)⟩, ?_⟩
    rintro w ⟨hw, hk⟩
    refine ((knows_addRule h hrhs hfree).mp hk).resolve_right fun hk => ?_
    exact Bool.false_ne_true (hw ▸ hk)
  size := by
    rw [← card_known (h.addRule hrhs hfree), known_addRule h hrhs hfree,
      Finset.card_insert_of_notMem, card_known h]
    rw [mem_known h, hfree]
    exact Bool.false_ne_true

end Store

theorem Solver.changesNothing_or_grows {solver : Solver} {outcome : Outcome}
    (h : solver.store.WellFormed) (hp : p.WellFormed) (hnone : ∀ v, solver.isRetired v = false)
    (hadd : solver.add p = .ok outcome) (haccepted : outcome.verdict = .ok ()) :
    outcome.ChangesNothing solver ∨ solver.store.Grows outcome.solver.store := by
  obtain ⟨host, valid, q, expand, ⟨value, -⟩ | ⟨v, c, pivot, hsolver⟩⟩ :=
    solver_eq_of_accepted h hp hnone hadd haccepted
  · obtain ⟨outcome', hadd', hiff⟩ := changesNothing_add_iff h hp host valid hnone expand
    cases hadd.symm.trans hadd'
    exact .inl (hiff.mpr value)
  · obtain ⟨-, hfree, hadmits⟩ := Store.admits_of_pivot? h hp valid expand pivot
    rw [hsolver]
    exact .inr (h.grows_addRule hadmits hfree)

namespace Run

/-- Where nothing retires, an accepted equation changes nothing, or one variable more is known and
nothing is forgotten. -/
theorem grows_of_calls (setting : Setting) {calls : List Call}
    (hcalls : ∀ call ∈ calls, call.WellFormed) :
    ∃ run, (start setting).calls calls = .ok run ∧ ((∀ v, run.solver.isRetired v = false) →
      ∀ p : LinearForm, p.WellFormed → ∃ outcome, run.solver.add p = .ok outcome ∧
        (outcome.verdict = .ok () →
          outcome.ChangesNothing run.solver ∨ run.solver.store.Grows outcome.solver.store)) := by
  obtain ⟨run, hrun, h⟩ := exists_calls (start setting) Store.wellFormed_empty hcalls
  refine ⟨run, hrun, fun hnone p hp => ?_⟩
  obtain ⟨outcome, hadd, -⟩ := Solver.exists_add h hp
  exact ⟨outcome, hadd, Solver.changesNothing_or_grows h hp hnone hadd⟩

/-- `x₃ = 2` solves `x₁` and `x₂` along with it, and `2x₁ + 2x₂ = 6` holds already. -/
theorem grows_of_calls_collapsing :
    ∃ run, (start { host := some { nameOf := Var.genericName } }).calls
        [.addAll [.ofTerms (-3) [(1, 1), (2, 1)], .ofTerms 0 [(3, 1), (2, -2)]],
          .setThreshold (1 / 10)] = .ok run ∧
      (∃ outcome, run.solver.add (.ofTerms (-2) [(3, 1)]) = .ok outcome ∧
        run.solver.store.Grows outcome.solver.store ∧
        outcome.notifications = [(3, 2), (1, 2), (2, 1)]) ∧
      ∃ outcome, run.solver.add (.ofTerms (-6) [(1, 2), (2, 2)]) = .ok outcome ∧
        outcome.ChangesNothing run.solver := by
  have hcalls : ∀ call ∈ [Call.addAll [.ofTerms (-3) [(1, 1), (2, 1)],
      .ofTerms 0 [(3, 1), (2, -2)]], .setThreshold (1 / 10)], call.WellFormed := by
    simp [Call.WellFormed, LinearForm.WellFormed.ofTerms]
  refine (grows_of_calls _ hcalls).imp fun run h => ⟨h.1, ?_⟩
  obtain ⟨hrun, hgrows⟩ := h
  have hnone (v : Var) : run.solver.isRetired v = false := by
    rw [toSetting_calls hcalls Store.wellFormed_empty hrun]
    rfl
  obtain ⟨first, hfirst, hfirst'⟩ := hgrows hnone (.ofTerms (-2) [(3, 1)]) (.ofTerms ..)
  obtain ⟨second, hsecond, hsecond'⟩ := hgrows hnone (.ofTerms (-6) [(1, 2), (2, 2)]) (.ofTerms ..)
  have hfacts := apply_eq_of_map_eq_ok (b := .ok (.ok (), [(3, 2), (1, 2), (2, 1)]))
    (f := fun run : Run => (run.solver.add (.ofTerms (-2) [(3, 1)])).map fun outcome =>
      (outcome.verdict, outcome.notifications)) hrun (by decide +kernel)
  have hfacts' := apply_eq_of_map_eq_ok (b := .ok (.ok (), true))
    (f := fun run : Run => (run.solver.add (.ofTerms (-6) [(1, 2), (2, 2)])).map fun outcome =>
      (outcome.verdict, outcome.solver.store == run.solver.store)) hrun (by decide +kernel)
  rw [hfirst, Except.map, Except.ok.injEq, Prod.mk.injEq] at hfacts
  rw [hsecond, Except.map, Except.ok.injEq, Prod.mk.injEq, beq_iff_eq] at hfacts'
  obtain ⟨haccepted, hnotes⟩ := hfacts
  obtain ⟨haccepted', hstore⟩ := hfacts'
  refine ⟨⟨first, hfirst, (hfirst' haccepted).resolve_left fun hn => ?_, hnotes⟩,
    second, hsecond, (hsecond' haccepted').resolve_right fun hn => ?_⟩
  · cases hn.notifications_eq.symm.trans hnotes
  · have := hn.size
    rw [hstore] at this
    omega

end Run

end SolvedForm
