import SolvedForm.Proofs.Solver.Sweep

/-!
# Propagation works a queue of rules off

`Progress.round` is what taking one rule out of the queue does, and `Progress.WorksOff` is the whole
loop: which rules it takes out on its way to its last progress. Nothing is asked of a store here but
that it is `Tabular`; a right-hand side may mention anything, and may be constant.

A loop goes wrong only in its first round, with a rule that mentions its own variable
(`propagate_eq_error`), since all later rules are constants. It takes one rule out for each dependency
that it removes, after those that it began with (`exists_worksOff`). If neither the first rule nor a
right-hand side mentions a dependent variable, then its round is one pass over the right-hand sides,
each by itself (`Store.RewrittenTo`), and the later rounds change nothing (`round_inert`).
-/

namespace SolvedForm

variable {eps : Rat} {known v w : Var} {value rhs : LinearForm} {rows : List (Var × LinearForm)}

namespace Table

variable {α : Type} {t : Table α} {rows : List (Var × α)} {a : α}

theorem sorted_foldl_insert (ht : t.Sorted) (rows : List (Var × α)) :
    (rows.foldl (fun t row => t.insert row.1 row.2) t).Sorted := by
  induction rows generalizing t with
  | nil => exact ht
  | cons row rows ih => exact ih (ht.insert _ _)

theorem get?_foldl_insert_of_not_mem (ht : t.Sorted) (h : ∀ row ∈ rows, row.1 ≠ v) :
    (rows.foldl (fun t row => t.insert row.1 row.2) t).get? v = t.get? v := by
  induction rows generalizing t with
  | nil => rfl
  | cons row rows ih =>
    obtain ⟨hne, h⟩ := List.forall_mem_cons.mp h
    rw [List.foldl_cons, ih (ht.insert _ _) h, get?_insert ht, if_neg hne.symm]

theorem get?_foldl_insert_of_mem (ht : t.Sorted) (hrows : rows.Pairwise fun a b => a.1 < b.1)
    (h : (v, a) ∈ rows) : (rows.foldl (fun t row => t.insert row.1 row.2) t).get? v = some a := by
  induction rows generalizing t with
  | nil => exact absurd h List.not_mem_nil
  | cons row rows ih =>
    obtain ⟨hlt, hrows⟩ := List.pairwise_cons.mp hrows
    rw [List.foldl_cons]
    rcases List.mem_cons.mp h with rfl | h
    · rw [get?_foldl_insert_of_not_mem (ht.insert v a) fun row hrow => Nat.ne_of_gt (hlt row hrow),
        get?_insert ht, if_pos rfl]
    · exact ih (ht.insert _ _) hrows h

end Table

namespace Store

variable {store : Store}

/-- Keys ascend and right-hand sides are in canonical shape, whatever they mention. -/
structure Tabular (store : Store) : Prop where
  dependents_sorted : store.dependents.Sorted
  solved_sorted : store.solved.Sorted
  rhs_wellFormed : ∀ row ∈ store.dependents.toList, row.2.WellFormed

theorem tabular_ofRows (hrows : rows.Pairwise fun a b => a.1 < b.1)
    (hwf : ∀ row ∈ rows, row.2.WellFormed) : ({ dependents := .ofRows rows } : Store).Tabular :=
  ⟨hrows, List.Pairwise.nil, hwf⟩

/-- The rule `known = value` mentions its own variable and is to be put into a right-hand side. -/
def Cycles (store : Store) (known : Var) (value : LinearForm) : Prop :=
  value.mentions known ∧ ∃ row ∈ store.dependents.toList, row.2.mentions known

/-- The store after one pass for `known = value` over all of its right-hand sides. -/
def pass (store : Store) (eps : Rat) (known : Var) (value : LinearForm) : Store :=
  let sweep := Sweep.pass eps known value store.dependents.toList
  { dependents := Table.ofRows sweep.kept
    solved := sweep.collapsed.foldl (fun solved row => solved.insert row.1 row.2) store.solved }

/-- The dependencies of `store` are rewritten to those of `next`, each of them by itself. -/
structure RewrittenTo (store : Store) (eps : Rat) (known : Var) (value : LinearForm)
    (next : Store) : Prop where
  tabular : next.Tabular
  /-- A right-hand side that does not mention `known` stays as it is. -/
  unchanged : ∀ w rhs, store.dependents.get? w = some rhs → ¬rhs.mentions known →
    next.dependents.get? w = some rhs ∧ next.solved.get? w = store.solved.get? w
  /-- In any other `value` takes the place of `known`, and the flushed result decides whether it stays
  a right-hand side or its constant becomes a solution. -/
  replaced : ∀ w rhs, store.dependents.get? w = some rhs → rhs.mentions known →
    ∃ new, rhs.substitute known value = .ok new ∧
      ((new.flush eps).value? = none → next.dependents.get? w = some (new.flush eps) ∧
        next.solved.get? w = store.solved.get? w) ∧
      ∀ c, (new.flush eps).value? = some c →
        next.dependents.get? w = none ∧ next.solved.get? w = some c
  /-- There are no new dependencies, and no other solutions. -/
  others : ∀ w, store.dependents.get? w = none →
    next.dependents.get? w = none ∧ next.solved.get? w = store.solved.get? w

/-- The dependencies of `store` are those of `next` and the `removed` ones, none counted twice. -/
def Removes (store next : Store) (removed : List (Var × Rat)) : Prop :=
  (removed.map Prod.fst ++ next.dependents.keys).Perm store.dependents.keys

theorem Removes.refl (store : Store) : store.Removes store [] :=
  List.Perm.refl _

theorem Removes.trans {mid next : Store} {first later : List (Var × Rat)}
    (h : store.Removes mid first) (h' : mid.Removes next later) :
    store.Removes next (first ++ later) := by
  unfold Removes
  rw [List.map_append, List.append_assoc]
  exact (List.Perm.append_left _ h').trans h

theorem Removes.length_add_size {next : Store} {removed : List (Var × Rat)}
    (h : store.Removes next removed) :
    removed.length + next.dependents.size = store.dependents.size := by
  simpa [Table.keys, Table.toList, Table.size] using h.length_eq

theorem removes_pass (store : Store) (eps : Rat) (known : Var) (value : LinearForm) :
    store.Removes (store.pass eps known value)
      (Sweep.pass eps known value store.dependents.toList).collapsed :=
  Sweep.perm_pass ..

namespace Tabular

theorem pass (h : store.Tabular) (hvalue : value.WellFormed) :
    (store.pass eps known value).Tabular where
  dependents_sorted := Sweep.pairwise_kept_pass h.dependents_sorted
  solved_sorted := Table.sorted_foldl_insert h.solved_sorted _
  rhs_wellFormed := fun row hrow => by
    obtain ⟨rhs, hmem, -, heq⟩ := Sweep.mem_kept_pass.mp hrow
    exact heq ▸ (h.rhs_wellFormed _ hmem).inline hvalue

theorem get?_dependents_pass (h : store.Tabular) :
    (store.pass eps known value).dependents.get? w = some rhs ↔
      ∃ old, store.dependents.get? w = some old ∧ ¬Sweep.collapses eps known value (w, old) ∧
        rhs = old.inline eps known value := by
  have hsorted : (store.pass eps known value).dependents.Sorted :=
    Sweep.pairwise_kept_pass h.dependents_sorted
  rw [Table.get?_eq_some_iff hsorted]
  simp only [Table.get?_eq_some_iff h.dependents_sorted]
  exact Sweep.mem_kept_pass

theorem get?_solved_pass_of_collapses (h : store.Tabular)
    (hold : store.dependents.get? w = some rhs) (hc : Sweep.collapses eps known value (w, rhs)) :
    (store.pass eps known value).solved.get? w = some (rhs.inline eps known value).constant := by
  refine Table.get?_foldl_insert_of_mem h.solved_sorted
    (Sweep.pairwise_collapsed_pass h.dependents_sorted) (Sweep.mem_collapsed_pass.mpr ?_)
  exact ⟨rhs, (Table.get?_eq_some_iff h.dependents_sorted).mp hold, hc, rfl⟩

theorem get?_solved_pass_of_not_collapses (h : store.Tabular)
    (hold : ∀ rhs, store.dependents.get? w = some rhs →
      ¬Sweep.collapses eps known value (w, rhs)) :
    (store.pass eps known value).solved.get? w = store.solved.get? w := by
  refine Table.get?_foldl_insert_of_not_mem h.solved_sorted fun row hrow => ?_
  rintro rfl
  obtain ⟨rhs, hmem, hc, -⟩ := Sweep.mem_collapsed_pass.mp hrow
  exact hold rhs ((Table.get?_eq_some_iff h.dependents_sorted).mpr hmem) hc

theorem get?_dependents_pass_eq_none (h : store.Tabular)
    (hold : ∀ rhs, store.dependents.get? w = some rhs → Sweep.collapses eps known value (w, rhs)) :
    (store.pass eps known value).dependents.get? w = none := by
  rw [Option.eq_none_iff_forall_ne_some]
  intro rhs hrhs
  obtain ⟨old, hget, hkept, -⟩ := h.get?_dependents_pass.mp hrhs
  exact hkept (hold old hget)

theorem mentions_of_mem_pass (h : store.Tabular) (hvalue : value.WellFormed)
    {row : Var × LinearForm} (hrow : row ∈ (store.pass eps known value).dependents.toList)
    (hm : row.2.mentions w) :
    value.mentions w ∨ ∃ row ∈ store.dependents.toList, row.2.mentions w := by
  obtain ⟨rhs, hmem, -, heq⟩ := Sweep.mem_kept_pass.mp hrow
  rw [heq] at hm
  rcases LinearForm.mentions_of_mentions_inline (h.rhs_wellFormed _ hmem) hvalue hm with ⟨-, hm⟩ | hm
  · exact .inr ⟨_, hmem, hm⟩
  · exact .inl hm

theorem rewrittenTo_pass (h : store.Tabular) (hvalue : value.WellFormed)
    (hself : ¬value.mentions known) :
    store.RewrittenTo eps known value (store.pass eps known value) where
  tabular := h.pass hvalue
  unchanged := by
    intro w rhs hget hm
    have hkept : ¬Sweep.collapses eps known value (w, rhs) := by simp [Sweep.collapses, hm]
    refine ⟨h.get?_dependents_pass.mpr ⟨rhs, hget, hkept, ?_⟩,
      h.get?_solved_pass_of_not_collapses fun rhs' hget' => ?_⟩
    · exact (LinearForm.inline_of_not_mentions hm).symm
    · cases hget.symm.trans hget'
      exact hkept
  replaced := by
    intro w rhs hget hm
    have hrhs := h.rhs_wellFormed _ ((Table.get?_eq_some_iff h.dependents_sorted).mp hget)
    have hinline : rhs.inline eps known value = (rhs.replace known value).flush eps := if_pos hm
    have hcollapses : Sweep.collapses eps known value (w, rhs) =
        ((rhs.replace known value).flush eps).isConstant := by
      simp [Sweep.collapses, hm, hinline]
    refine ⟨_, LinearForm.substitute_eq_ok (LinearForm.ne_constant_of_mentions hrhs hm) hself,
      fun hnone => ?_, fun c hsome => ?_⟩
    · have hkept := hcollapses ▸ LinearForm.value?_eq_none_iff.mp hnone
      refine ⟨h.get?_dependents_pass.mpr ⟨rhs, hget, hkept, hinline.symm⟩,
        h.get?_solved_pass_of_not_collapses fun rhs' hget' => ?_⟩
      cases hget.symm.trans hget'
      exact hkept
    · obtain ⟨hconst, rfl⟩ := LinearForm.value?_eq_some_iff.mp hsome
      have hc := hcollapses.trans hconst
      refine ⟨h.get?_dependents_pass_eq_none fun rhs' hget' => ?_, ?_⟩
      · cases hget.symm.trans hget'
        exact hc
      · rw [h.get?_solved_pass_of_collapses hget hc, hinline]
  others := by
    intro w hnone
    have habsurd {P : LinearForm → Prop} : ∀ rhs, store.dependents.get? w = some rhs → P rhs :=
      fun rhs hget => by cases hnone.symm.trans hget
    exact ⟨h.get?_dependents_pass_eq_none habsurd, h.get?_solved_pass_of_not_collapses habsurd⟩

end Tabular

end Store

namespace Progress

variable {setting : Setting} {progress next final : Progress} {rule : Var × LinearForm}
  {pending pushed popped : List (Var × LinearForm)}

/-- The rule that a solution puts into the queue. -/
def ruleOf (row : Var × Rat) : Var × LinearForm :=
  (row.1, LinearForm.ofConstant row.2)

/-- Takes `rule` out of the queue: the progress after its round, and the rules that the round puts
into the queue. -/
def round (setting : Setting) (progress : Progress) (rule : Var × LinearForm) :
    Except Misuse (Progress × List (Var × LinearForm)) :=
  (Sweep.run setting.threshold rule.1 rule.2 progress.store.dependents.toList).map fun sweep =>
    (progress.afterSweep setting sweep, sweep.collapsed.map ruleOf)

/-- The progress after one pass for `known = value`. -/
def pass (setting : Setting) (progress : Progress) (known : Var) (value : LinearForm) : Progress :=
  progress.afterSweep setting
    (Sweep.pass setting.threshold known value progress.store.dependents.toList)

theorem store_foldl_learn (setting : Setting) (rows : List (Var × Rat)) (progress : Progress) :
    (rows.foldl (learn setting) progress).store =
      { dependents := progress.store.dependents
        solved := rows.foldl (fun solved row => solved.insert row.1 row.2)
          progress.store.solved } := by
  induction rows generalizing progress with
  | nil => rfl
  | cons row rows ih => rw [List.foldl_cons, ih]; rfl

theorem store_pass (setting : Setting) (progress : Progress) (known : Var) (value : LinearForm) :
    (progress.pass setting known value).store = progress.store.pass setting.threshold known value :=
  store_foldl_learn ..

theorem run_eq_pass (h : progress.store.Tabular) (hcycle : ¬progress.store.Cycles known value) :
    Sweep.run setting.threshold known value progress.store.dependents.toList =
      .ok (Sweep.pass setting.threshold known value progress.store.dependents.toList) := by
  refine Sweep.run_eq_pass _ fun row hrow hm => ⟨?_, fun hself => hcycle ⟨hself, row, hrow, hm⟩⟩
  exact LinearForm.ne_constant_of_mentions (h.rhs_wellFormed row hrow) hm

theorem round_eq_ok (setting : Setting) (h : progress.store.Tabular)
    (hcycle : ¬progress.store.Cycles known value) :
    progress.round setting (known, value) = .ok (progress.pass setting known value,
      (Sweep.pass setting.threshold known value progress.store.dependents.toList).collapsed.map
        ruleOf) := by
  rw [round, run_eq_pass h hcycle]
  rfl

/-- A rule for a variable that no right-hand side mentions changes nothing. -/
theorem round_inert (h : ∀ row ∈ progress.store.dependents.toList, ¬row.2.mentions rule.1) :
    progress.round setting rule = .ok (progress, []) := by
  rw [round, Sweep.run_eq_pass _ fun row hrow hm => absurd hm (h row hrow),
    Sweep.pass_of_not_mentions h]
  show Except.ok (progress.afterSweep setting { kept := _ }, []) = _
  rw [afterSweep_kept]

theorem propagate_cons_of_round (h : progress.round setting rule = .ok (next, pushed)) :
    progress.propagate setting (rule :: pending) = next.propagate setting (pending ++ pushed) := by
  unfold round at h
  cases hrun : Sweep.run setting.threshold rule.1 rule.2 progress.store.dependents.toList with
  | error misuse =>
    rw [hrun] at h
    cases h
  | ok sweep =>
    rw [hrun] at h
    cases h
    exact propagate_of_run_ok hrun

theorem propagate_eq_error (h : progress.store.Cycles known value) :
    progress.propagate setting ((known, value) :: pending) = .error (.cyclicSubstitution known) :=
  propagate_of_run_error (Sweep.run_eq_error h.1 h.2)

/-! ### The whole queue -/

/-- The queue `pending` is worked off from `progress` to `final`, and the rules that are taken out of
it are `popped`, in this order. -/
inductive WorksOff (setting : Setting) :
    Progress → List (Var × LinearForm) → List (Var × LinearForm) → Progress → Prop
  | done {progress : Progress} : WorksOff setting progress [] [] progress
  | round {progress next final : Progress} {rule : Var × LinearForm}
    {pending pushed popped : List (Var × LinearForm)}
    (h : progress.round setting rule = .ok (next, pushed))
    (rest : WorksOff setting next (pending ++ pushed) popped final) :
    WorksOff setting progress (rule :: pending) (rule :: popped) final

theorem WorksOff.propagate_eq (h : WorksOff setting progress pending popped final) :
    progress.propagate setting pending = .ok final := by
  induction h with
  | done => rw [propagate]
  | round h _ ih => rw [propagate_cons_of_round h, ih]

theorem WorksOff.of_inert (h : ∀ rule ∈ pending, progress.round setting rule = .ok (progress, [])) :
    WorksOff setting progress pending pending progress := by
  induction pending with
  | nil => exact .done
  | cons rule pending ih =>
    obtain ⟨hrule, h⟩ := List.forall_mem_cons.mp h
    refine .round hrule ?_
    rw [List.append_nil]
    exact ih h

/-- Rules that do not mention their own variables are worked off. After them the queue holds one rule
for each dependency that is removed. -/
theorem exists_worksOff (setting : Setting) (h : progress.store.Tabular)
    (hpending : ∀ rule ∈ pending, rule.2.WellFormed ∧ ¬rule.2.mentions rule.1) :
    ∃ (removed : List (Var × Rat)) (final : Progress),
      WorksOff setting progress pending (pending ++ removed.map ruleOf) final ∧
        progress.store.Removes final.store removed := by
  fun_induction propagate setting progress pending with
  | case1 progress => exact ⟨[], progress, .done, .refl _⟩
  | case2 progress known value pending misuse hrun =>
    obtain ⟨-, hself⟩ := hpending _ (List.mem_cons_self ..)
    cases (run_eq_pass h fun hcycle => hself hcycle.1).symm.trans hrun
  | case3 progress known value pending sweep hrun ih =>
    obtain ⟨⟨hvalue, hself⟩, hpending⟩ := List.forall_mem_cons.mp hpending
    have hcycle : ¬progress.store.Cycles known value := fun hcycle => hself hcycle.1
    cases (run_eq_pass h hcycle).symm.trans hrun
    obtain ⟨removed, final, hrest, hremoves⟩ :=
      ih (store_pass setting progress known value ▸ h.pass hvalue) fun rule hrule => by
        rcases List.mem_append.mp hrule with hrule | hrule
        · exact hpending rule hrule
        -- what was put into the queue are solutions, and constants mention nothing
        · obtain ⟨row, -, rfl⟩ := List.mem_map.mp hrule
          exact ⟨.ofConstant row.2, LinearForm.not_mentions_of_isConstant (.ofConstant row.2) rfl⟩
    refine ⟨_ ++ removed, final, ?_, (Store.removes_pass ..).trans (store_pass .. ▸ hremoves)⟩
    rw [List.map_append, List.cons_append, ← List.append_assoc]
    exact .round (round_eq_ok setting h hcycle) hrest

/-- Propagating `rule` ends with `final`. Besides `rule` the queue holds one rule for each of the
`removed` dependencies. -/
structure Ends (setting : Setting) (progress : Progress) (rule : Var × LinearForm)
    (removed : List (Var × Rat)) (final : Progress) : Prop where
  propagate_eq : progress.propagate setting [rule] = .ok final
  worksOff : WorksOff setting progress [rule] (rule :: removed.map ruleOf) final
  removes : progress.store.Removes final.store removed
  length_add_size : removed.length + final.store.dependents.size = progress.store.dependents.size

theorem WorksOff.ends {removed : List (Var × Rat)}
    (h : WorksOff setting progress [rule] (rule :: removed.map ruleOf) final)
    (hremoves : progress.store.Removes final.store removed) :
    progress.Ends setting rule removed final :=
  ⟨h.propagate_eq, h, hremoves, hremoves.length_add_size⟩

theorem exists_ends (setting : Setting) (h : progress.store.Tabular) (hvalue : value.WellFormed)
    (hcycle : ¬progress.store.Cycles known value) :
    ∃ removed final, progress.Ends setting (known, value) removed final := by
  by_cases hself : value.mentions known
  · have hinert : ∀ row ∈ progress.store.dependents.toList, ¬row.2.mentions known :=
      fun row hrow hm => hcycle ⟨hself, row, hrow, hm⟩
    exact ⟨[], progress, WorksOff.ends (.round (round_inert hinert) .done) (.refl _)⟩
  · have hrule : ∀ rule ∈ [(known, value)], rule.2.WellFormed ∧ ¬rule.2.mentions rule.1 := by
      simp [hvalue, hself]
    obtain ⟨removed, final, hworks, hremoves⟩ := exists_worksOff setting h hrule
    exact ⟨removed, final, hworks.ends hremoves⟩

/-- If right-hand sides mention no dependent variable, then those that collapse are mentioned nowhere
after the first round. -/
theorem round_of_mem_collapsed (setting : Setting) (h : progress.store.Tabular)
    (hvalue : value.WellFormed) (known : Var) (hkeys : ∀ row ∈ progress.store.dependents.toList,
      ¬value.mentions row.1 ∧ ∀ row' ∈ progress.store.dependents.toList, ¬row'.2.mentions row.1) :
    ∀ row ∈ (Sweep.pass setting.threshold known value progress.store.dependents.toList).collapsed,
      (progress.pass setting known value).round setting (ruleOf row) =
        .ok (progress.pass setting known value, []) := by
  intro row hrow
  obtain ⟨rhs, hmem, -, -⟩ := Sweep.mem_collapsed_pass.mp hrow
  obtain ⟨hvalue', hothers⟩ := hkeys _ hmem
  refine round_inert fun other hother hm => ?_
  rw [store_pass] at hother
  rcases h.mentions_of_mem_pass hvalue hother hm with hm | ⟨row', hrow', hm⟩
  · exact hvalue' hm
  · exact hothers row' hrow' hm

theorem worksOff_pass (setting : Setting) (h : progress.store.Tabular) (hvalue : value.WellFormed)
    (hself : ¬value.mentions known) (hkeys : ∀ row ∈ progress.store.dependents.toList,
      ¬value.mentions row.1 ∧ ∀ row' ∈ progress.store.dependents.toList, ¬row'.2.mentions row.1) :
    WorksOff setting progress [(known, value)] ((known, value) ::
      (Sweep.pass setting.threshold known value progress.store.dependents.toList).collapsed.map ruleOf)
      (progress.pass setting known value) :=
  .round (round_eq_ok setting h fun hcycle => hself hcycle.1)
    (.of_inert (List.forall_mem_map.mpr (round_of_mem_collapsed setting h hvalue known hkeys)))

/-- Propagation is one pass over the right-hand sides, each by itself, as long as neither they nor
`value` mention a dependent variable: the rules for what collapses change nothing when their turn
comes. In any other store the queue is worked off as well, with one rule besides the first for each
dependency that is removed, unless the rule cycles. -/
theorem propagate_rounds (setting : Setting) (h : progress.store.Tabular) (hvalue : value.WellFormed)
    (known : Var) :
    (¬value.mentions known →
      (∀ row ∈ progress.store.dependents.toList, ¬value.mentions row.1 ∧
        ∀ row' ∈ progress.store.dependents.toList, ¬row'.2.mentions row.1) →
      ∃ removed final, progress.Ends setting (known, value) removed final ∧
        progress.store.RewrittenTo setting.threshold known value final.store ∧
        progress.round setting (known, value) = .ok (final, removed.map ruleOf) ∧
        ∀ row ∈ removed, final.round setting (ruleOf row) = .ok (final, [])) ∧
    (progress.store.Cycles known value →
      progress.propagate setting [(known, value)] = .error (.cyclicSubstitution known)) ∧
    (¬progress.store.Cycles known value →
      ∃ removed final, progress.Ends setting (known, value) removed final) := by
  refine ⟨fun hself hkeys => ?_, propagate_eq_error, exists_ends setting h hvalue⟩
  refine ⟨_, _, (worksOff_pass setting h hvalue hself hkeys).ends ?_, ?_,
    round_eq_ok setting h fun hcycle => hself hcycle.1,
    round_of_mem_collapsed setting h hvalue known hkeys⟩
  · rw [store_pass]
    exact Store.removes_pass ..
  · rw [store_pass]
    exact h.rewrittenTo_pass hvalue hself

/-- With `x₅ = 1 + x₆` the right-hand side `x₅ - x₆` of `x₁` collapses, and the constant one of `x₄`
stays. In the second store `x₅ = 3` makes three dependencies collapse one after the other, and
`x₅ = 1 + x₅` cycles. -/
theorem propagate_rounds_collapsing :
    (∃ (progress : Progress) (removed : List (Var × Rat)) (final : Progress),
      progress.store.dependents = .ofRows [(1, .ofTerms 0 [(5, 1), (6, -1)]),
        (2, .ofTerms 0 [(5, 1), (7, 1)]), (3, .ofTerms 0 [(7, 1)]), (4, .ofConstant 7)] ∧
      progress.Ends {} (5, .ofTerms 1 [(6, 1)]) removed final ∧ removed.map Prod.fst = [1] ∧
      final.store.dependents.get? 4 = some (.ofConstant 7) ∧
      ∀ row ∈ removed, final.round {} (ruleOf row) = .ok (final, [])) ∧
    ∃ progress : Progress, progress.store.dependents = .ofRows [(1, .ofTerms 0 [(5, 1)]),
        (2, .ofTerms 1 [(1, 1)]), (3, .ofTerms 0 [(2, 1), (5, 1)])] ∧
      (∃ removed final, progress.Ends {} (5, .ofConstant 3) removed final ∧ removed.length = 3) ∧
      progress.propagate {} [(5, .ofTerms 1 [(5, 1)])] = .error (.cyclicSubstitution 5) := by
  constructor
  · let rows : List (Var × LinearForm) := [(1, .ofTerms 0 [(5, 1), (6, -1)]),
      (2, .ofTerms 0 [(5, 1), (7, 1)]), (3, .ofTerms 0 [(7, 1)]), (4, .ofConstant 7)]
    let progress : Progress := { store := { dependents := .ofRows rows } }
    have h : progress.store.Tabular := Store.tabular_ofRows (by decide) (by
      simp [rows, LinearForm.WellFormed.ofTerms, LinearForm.WellFormed.ofConstant])
    obtain ⟨removed, final, hends, hrewritten, hround, hinert⟩ :=
      (propagate_rounds {} h (.ofTerms 1 [(6, 1)]) 5).1 (by decide +kernel) (by decide +kernel)
    refine ⟨progress, removed, final, rfl, hends, ?_, ?_, hinert⟩
    · have hpushed : (progress.round {} (5, .ofTerms 1 [(6, 1)])).map
          (fun next => next.2.map Prod.fst) = .ok [1] := by decide +kernel
      rw [hround] at hpushed
      simpa [Except.map, ruleOf, Function.comp_def] using hpushed
    · exact (hrewritten.unchanged 4 (.ofConstant 7) (by decide +kernel) (by decide +kernel)).1
  · let rows : List (Var × LinearForm) := [(1, .ofTerms 0 [(5, 1)]), (2, .ofTerms 1 [(1, 1)]),
      (3, .ofTerms 0 [(2, 1), (5, 1)])]
    let progress : Progress := { store := { dependents := .ofRows rows } }
    have h : progress.store.Tabular :=
      Store.tabular_ofRows (by decide) (by simp [rows, LinearForm.WellFormed.ofTerms])
    have hcycle : ¬progress.store.Cycles 5 (.ofConstant 3) := fun hcycle =>
      absurd hcycle.1 (by decide +kernel)
    obtain ⟨removed, final, hends⟩ := (propagate_rounds {} h (.ofConstant 3) 5).2.2 hcycle
    refine ⟨progress, rfl, ⟨removed, final, hends, ?_⟩, ?_⟩
    · have hsize : (progress.propagate {} [(5, .ofConstant 3)]).map
          (fun last => last.store.dependents.size) = .ok 0 := by decide +kernel
      rw [hends.propagate_eq] at hsize
      have hempty : final.store.dependents.size = 0 := Except.ok.inj hsize
      have hlength := hends.length_add_size
      rwa [hempty] at hlength
    · exact (propagate_rounds {} h (.ofTerms 1 [(5, 1)]) 5).2.1
        ⟨by decide +kernel, _, List.mem_cons_self .., by decide +kernel⟩

end Progress

end SolvedForm
