import SolvedForm.Proofs.Solver.Purging

/-!
# What a retirement leaves alone

A variable is solved, or dependent, or mentioned on right-hand sides (`Store.holders`), but never
two of these: retiring it removes its rule, or else gives up the first of its holders. If that is
the only one the store loses nothing else (`Store.retire_of_holders_singleton`). Otherwise the
variable is replaced in all other rules, which changes those that mention it and leaves the rest
alone (`Store.eliminates_retire`).
-/

namespace SolvedForm

variable {store : Store} {rhs value : LinearForm} {v w y : Var} {eps : Rat}

namespace Store

/-- The dependencies whose right-hand sides mention `v`, in ascending order. -/
def holders (store : Store) (v : Var) : List (Var × LinearForm) :=
  store.dependents.toList.filter fun row => row.2.mentions v

theorem mem_holders {row : Var × LinearForm} :
    row ∈ store.holders v ↔ row ∈ store.dependents.toList ∧ row.2.mentions v :=
  List.mem_filter

theorem holder?_eq_head? (store : Store) (v : Var) : store.holder? v = (store.holders v).head? :=
  (List.head?_filter ..).symm

theorem holders_eq_nil_of_not_mentions (hv : ¬store.Mentions v) : store.holders v = [] :=
  List.filter_eq_nil_iff.mpr fun row hrow hm => hv (.inr ⟨row, hrow, hm⟩)

theorem forget_of_solved (h : store.WellFormed) (hv : store.solved.contains v = true) :
    store.forget v = { store with solved := store.solved.erase v } := by
  rw [forget, Table.erase_of_not_contains fun hd => h.disjoint v ⟨hd, hv⟩]

theorem retire_of_solved (h : store.WellFormed) (hv : store.solved.contains v = true) :
    store.retire eps v = { store with solved := store.solved.erase v } := by
  have hk : store.knows v = true := by rw [knows, hv, Bool.true_or]
  rw [retire_of_holder?_eq_none h (holder?_of_knows h hk), forget_of_solved h hv]

theorem retire_of_dependent (h : store.WellFormed) (hv : store.dependents.contains v = true) :
    store.retire eps v = store.release v := by
  have hk : store.knows v = true := by rw [knows, hv, Bool.or_true]
  obtain ⟨rhs, hrhs⟩ := (Table.contains_iff_exists h.dependents_sorted).mp hv
  rw [retire_of_holder?_eq_none h (holder?_of_knows h hk), release_eq_forget h hrhs]

theorem retire_of_not_mentions (h : store.WellFormed) (hv : ¬store.Mentions v) :
    store.retire eps v = store := by
  have hfree : store.knows v = false := Bool.eq_false_iff.mpr fun hk => hv (.inl hk)
  have hholder : store.holder? v = none := by
    rw [holder?_eq_head?, holders_eq_nil_of_not_mentions hv]
    rfl
  rw [retire_of_holder?_eq_none h hholder, forget_of_not_knows hfree]

theorem inline_of_not_mentions (hrows : ∀ row ∈ store.dependents.toList, ¬row.2.isConstant)
    (hm : ∀ row ∈ store.dependents.toList, ¬row.2.mentions v) :
    store.inline eps v value = store := by
  rw [inline, Sweep.ofRows_of_not_mentions hm hrows]
  simp [Table.ofRows, Table.toList]

theorem retire_of_holders_singleton (h : store.WellFormed) (hv : store.holders v = [(y, rhs)]) :
    store.retire eps v = store.release y := by
  have hholder : store.holder? v = some (y, rhs) := by
    rw [holder?_eq_head?, hv]
    rfl
  rw [retire_of_holder? h hholder]
  refine inline_of_not_mentions (fun row hrow => ?_) fun row hrow hm => ?_ <;>
    obtain ⟨hrow, hne⟩ := (Table.mem_toList_erase h.dependents_sorted).mp hrow
  · exact h.rhs_not_constant row hrow
  · have hmem : row ∈ store.holders v := mem_holders.mpr ⟨hrow, hm⟩
    rw [hv, List.mem_singleton] at hmem
    exact hne (congrArg Prod.fst hmem)

/-- The dependency `y = rhs` is given up to eliminate `v` from `store`, which leaves `next`. -/
structure Eliminates (store next : Store) (eps : Rat) (v y : Var) (rhs : LinearForm) : Prop where
  mem : (y, rhs) ∈ store.holders v
  least : ∀ row ∈ store.holders v, y ≤ row.1
  knows_iff : ∀ w, next.knows w = true ↔ w ≠ y ∧ store.knows w = true
  solved_kept : ∀ w c, store.solved.get? w = some c → next.solved.get? w = some c
  dependent_kept : ∀ w q, store.dependents.get? w = some q → ¬q.mentions v →
    next.dependents.get? w = some q
  /-- The other holders have `v` replaced by what it is in terms of `y`. -/
  rewritten : ∃ expr, rhs.solvedFor y v = .ok expr ∧ ∀ w q, (w, q) ∈ store.holders v → w ≠ y →
    ∃ q', q.substitute v expr = .ok q' ∧ next.rule? w = some (q'.flush eps)
  not_mentions : ¬next.Mentions v

theorem le_of_mem_holders (h : store.WellFormed) (hholder : store.holder? v = some (y, rhs))
    {row : Var × LinearForm} (hrow : row ∈ store.holders v) : y ≤ row.1 := by
  have hsorted : (store.holders v).Pairwise fun a b => a.1 < b.1 :=
    List.Pairwise.filter _ h.dependents_sorted
  rw [holder?_eq_head?] at hholder
  obtain ⟨rows, hrows⟩ := List.head?_eq_some_iff.mp hholder
  rw [hrows] at hrow hsorted
  rcases List.mem_cons.mp hrow with rfl | hrow
  · exact Nat.le_refl _
  · exact Nat.le_of_lt ((List.pairwise_cons.mp hsorted).1 row hrow)

theorem rule?_retire_of_not_mentions (h : store.WellFormed)
    (hholder : store.holder? v = some (y, rhs)) {q : LinearForm} (hq : store.rule? w = some q)
    (hqm : ¬q.mentions v) : (store.retire eps v).rule? w = some q := by
  obtain ⟨hmem, hm⟩ := mem_of_holder? hholder
  have hne : w ≠ y := by
    rintro rfl
    cases hq.symm.trans (rule?_of_mem_dependents h hmem)
    exact hqm hm
  rw [rule?_retire h hholder, if_neg hne, hq, Option.map_some,
    LinearForm.inline_of_not_mentions hqm]

theorem eliminates_retire (h : store.WellFormed) (hholder : store.holder? v = some (y, rhs)) :
    store.Eliminates (store.retire eps v) eps v y rhs := by
  obtain ⟨hmem, hm⟩ := mem_of_holder? hholder
  obtain ⟨-, hadmits⟩ := Admits.invert h (not_knows_of_holder? h hholder) hholder
  have hwf := h.retire eps v
  refine ⟨mem_holders.mpr ⟨hmem, hm⟩, fun row => le_of_mem_holders h hholder, ?knows_iff,
    ?solved_kept, ?dependent_kept, ?rewritten, ?not_mentions⟩
  case knows_iff =>
    intro w
    rw [knows_eq_isSome_rule?, rule?_retire h hholder, knows_eq_isSome_rule?]
    split <;> simp_all
  case solved_kept =>
    intro w c hc
    rw [Table.get?_eq_some_iff h.solved_sorted] at hc
    rw [Table.get?_eq_some_iff hwf.solved_sorted]
    have hne : w ≠ v := ne_of_mem_solved h.solved_sorted (not_knows_of_holder? h hholder) hc
    exact (mem_solved_retire_iff h).mpr (.inl ⟨hne, hc⟩)
  case dependent_kept =>
    intro w q hq hqm
    rw [Table.get?_eq_some_iff h.dependents_sorted] at hq
    rw [Table.get?_eq_some_iff hwf.dependents_sorted]
    have hrule : (store.retire eps v).rule? w = some q :=
      rule?_retire_of_not_mentions h hholder (rule?_of_mem_dependents h hq) hqm
    rcases mem_of_rule? hwf hrule with ⟨c, -, rfl⟩ | hkept
    · exact absurd rfl (h.rhs_not_constant _ hq)
    · exact hkept
  case rewritten =>
    have hy0 := ne_constant_of_knows h (knows_of_mem_dependents h.dependents_sorted hmem)
    refine ⟨_, LinearForm.solvedFor_eq_ok (h.rhs_wellFormed _ hmem) hy0 hm, fun w q hq hne => ?_⟩
    obtain ⟨hq, hqm⟩ := mem_holders.mp hq
    refine ⟨_, LinearForm.substitute_eq_ok hadmits.ne_constant hadmits.not_mentions, ?_⟩
    rw [rule?_retire h hholder, if_neg hne, rule?_of_mem_dependents h hq, Option.map_some,
      LinearForm.inline, if_pos hqm]
  case not_mentions => exact fun hv => (hv.of_retire h).1 rfl

/-- A right-hand side collapses only if it is a holder besides the one that is given up. -/
theorem not_collapses_of_length_holders (hle : (store.holders v).length ≤ 1) {c : Rat} :
    ¬store.Collapses eps v w c := by
  rintro ⟨y, holder, rhs, hholder, hrhs, hne, hm, -⟩
  rw [holder?_eq_head?] at hholder
  obtain ⟨rows, hrows⟩ := List.head?_eq_some_iff.mp hholder
  have hmem : (w, rhs) ∈ store.holders v := mem_holders.mpr ⟨hrhs, hm⟩
  rw [hrows, List.length_cons] at hle
  have hnil : rows = [] := List.eq_nil_of_length_eq_zero (by omega)
  rw [hrows, hnil, List.mem_singleton] at hmem
  exact hne (congrArg Prod.fst hmem)

end Store

/-- What retiring `v` does, according to where the store has it. -/
structure Outcome.TakesOut (outcome : Outcome) (solver : Solver) (v : Var) : Prop where
  solved : solver.isSolved v = true → outcome.solver =
    { solver with store := { solver.store with solved := solver.store.solved.erase v } }
  dependent : solver.isDependent v = true → outcome.solver =
    { solver with store := { solver.store with dependents := solver.store.dependents.erase v } }
  one_holder : ∀ y rhs, solver.store.holders v = [(y, rhs)] → outcome.solver =
    { solver with store := { solver.store with dependents := solver.store.dependents.erase y } }
  nowhere : ¬solver.store.Mentions v → outcome.solver = solver
  /-- The first of several holders is given up, and the setting stays. -/
  several : 2 ≤ (solver.store.holders v).length → ∃ y rhs store,
    outcome.solver = { solver with store } ∧
    solver.store.Eliminates store solver.threshold v y rhs
  /-- The host hears nothing unless holders are rewritten. -/
  silent : (solver.store.holders v).length ≤ 1 → outcome.notifications = []

namespace Solver

variable {solver : Solver}

theorem exists_retire_takesOut (h : solver.store.WellFormed)
    (hempty : solver.host = none → solver.store = {}) (v : Var) :
    ∃ outcome, solver.retire v = .ok outcome ∧ outcome.TakesOut solver v := by
  obtain ⟨outcome, hretire, hforgets⟩ := exists_retire_forgets h hempty v
  have hsolver := eq_of_retire h hretire
  refine ⟨outcome, hretire, fun hv => ?_, fun hv => ?_, fun y rhs hv => ?_, fun hv => ?_,
    fun hle => ?_, fun hle => ?_⟩
  · rw [hsolver, Store.retire_of_solved h hv]
  · rw [hsolver, Store.retire_of_dependent h hv]
    rfl
  · rw [hsolver, Store.retire_of_holders_singleton h hv]
    rfl
  · rw [hsolver, Store.retire_of_not_mentions h hv]
  · cases hholder : solver.store.holder? v with
    | none =>
      rw [Store.holder?_eq_head?, List.head?_eq_none_iff] at hholder
      rw [hholder, List.length_nil] at hle
      omega
    | some rule => exact ⟨rule.1, rule.2, _, hsolver, Store.eliminates_retire h hholder⟩
  · refine List.eq_nil_iff_forall_not_mem.mpr fun row hrow => ?_
    have hc := (hforgets.notified_iff row.1 row.2).mp hrow
    rw [Store.collapsesAmong_cons_iff, or_iff_left Store.not_collapsesAmong_nil] at hc
    exact Store.not_collapses_of_length_holders hle hc

end Solver

namespace Run

/-- Whatever the store, a retired variable takes one rule with it: its own, or that of its first
holder. All else that does not mention it stays. -/
theorem takesOut_of_calls (setting : Setting) {calls : List Call}
    (hcalls : ∀ call ∈ calls, call.WellFormed) :
    ∃ run, (start setting).calls calls = .ok run ∧
      ∀ v, ∃ outcome, run.solver.retire v = .ok outcome ∧ outcome.TakesOut run.solver v := by
  obtain ⟨run, hrun, h⟩ := exists_calls_recorded setting hcalls
  exact ⟨run, hrun, Solver.exists_retire_takesOut h.wellFormed h.store_eq_empty⟩

/-- The store solves `x₇`, and has two holders of `x₄`, one of `x₉` and three of `x₅`. As `x₄`
retires `x₁` is given up, and `x₂ = -x₄/4` is expressed in it. -/
theorem takesOut_of_calls_several :
    ∃ run, (start { host := some { nameOf := Var.genericName } }).calls
        [.addAll [.ofTerms 0 [(1, 3), (4, -2), (5, 1)], .ofTerms 0 [(2, 4), (4, 1)],
          .ofTerms 0 [(3, 1), (5, -1)], .ofTerms (-5) [(7, 1)], .ofTerms 0 [(8, 3), (9, -2)],
          .ofTerms 1 [(6, 2), (5, -1)]]] = .ok run ∧
      (∀ v, ∃ outcome, run.solver.retire v = .ok outcome ∧ outcome.TakesOut run.solver v) ∧
      run.solver.isSolved 7 = true ∧ run.solver.isDependent 3 = true ∧
      (run.solver.store.holders 4).map Prod.fst = [1, 2] ∧
      (run.solver.store.holders 5).map Prod.fst = [1, 3, 6] ∧
      (run.solver.store.holders 9).map Prod.fst = [8] ∧
      ∃ outcome, run.solver.retire 4 = .ok outcome ∧ outcome.TakesOut run.solver 4 ∧
        outcome.solver.store.dependents.get? 2 = some (.ofTerms 0 [(1, -3 / 8), (5, -1 / 8)]) := by
  refine (takesOut_of_calls { host := some { nameOf := Var.genericName } } ?_).imp
    fun run h => ⟨h.1, h.2, ?_⟩
  · simp [Call.WellFormed, LinearForm.WellFormed.ofTerms]
  obtain ⟨hrun, htakes⟩ := h
  obtain ⟨outcome, hretire, h4⟩ := htakes 4
  have hstore := apply_eq_of_map_eq_ok (b := (true, true, [1, 2], [1, 3, 6], [8]))
    (f := fun run : Run => (run.solver.isSolved 7, run.solver.isDependent 3,
      (run.solver.store.holders 4).map Prod.fst, (run.solver.store.holders 5).map Prod.fst,
      (run.solver.store.holders 9).map Prod.fst)) hrun (by decide +kernel)
  have hafter := apply_eq_of_map_eq_ok (b := .ok (some (.ofTerms 0 [(1, -3 / 8), (5, -1 / 8)])))
    (f := fun run : Run => (run.solver.retire 4).map
      fun outcome => outcome.solver.store.dependents.get? 2) hrun (by decide +kernel)
  simp only [Prod.mk.injEq] at hstore
  rw [hretire, Except.map, Except.ok.injEq] at hafter
  obtain ⟨hsolved, hdependent, hholders4, hholders5, hholders9⟩ := hstore
  exact ⟨hsolved, hdependent, hholders4, hholders5, hholders9, outcome, hretire, h4, hafter⟩

end Run

end SolvedForm
