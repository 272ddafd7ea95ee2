import SolvedForm.Solver.Propagation
import SolvedForm.Proofs.LinearForm.Substitution

/-!
# One sweep over the dependencies

A sweep for `known = value` rewrites the rows that mention `known`, each by itself, and moves those
that become constant to the collapsed ones (`run_eq_pass`). It goes wrong only if `value` mentions
`known` and a row does (`run_eq_error`). Of rows that are not constant to begin with the collapsed ones
are simply the constant ones afterwards (`pass_eq_ofRows`).
-/

namespace SolvedForm

variable {eps : Rat} {known v w : Var} {value rhs : LinearForm} {rows : List (Var × LinearForm)}
  {s : Var → Rat}

namespace LinearForm

/-- What a sweep for `known = value` makes of the right-hand side `rhs`. -/
def inline (rhs : LinearForm) (eps : Rat) (known : Var) (value : LinearForm) : LinearForm :=
  if rhs.mentions known then (rhs.replace known value).flush eps else rhs

theorem inline_of_not_mentions (h : ¬rhs.mentions known) : rhs.inline eps known value = rhs :=
  if_neg h

theorem WellFormed.inline (hrhs : rhs.WellFormed) (hvalue : value.WellFormed) :
    (rhs.inline eps known value).WellFormed := by
  unfold LinearForm.inline
  split
  · rename_i hm
    exact (hrhs.replace (ne_constant_of_mentions hrhs hm) hvalue).flush eps
  · exact hrhs

theorem valid_inline (hrhs : rhs.valid) (hvalue : value.valid) :
    (rhs.inline eps known value).valid := by
  unfold inline
  split
  · exact valid_replace hrhs hvalue
  · exact hrhs

theorem mentions_of_mentions_inline (hrhs : rhs.WellFormed) (hvalue : value.WellFormed)
    (h : (rhs.inline eps known value).mentions w) :
    w ≠ known ∧ rhs.mentions w ∨ value.mentions w := by
  unfold inline at h
  split at h
  · rename_i hm
    have hknown := ne_constant_of_mentions hrhs hm
    have := mentions_of_mentions_flush (hrhs.replace hknown hvalue) h
    exact mentions_of_mentions_replace hrhs hknown hvalue this
  · rename_i hn
    exact .inl ⟨by rintro rfl; exact hn h, h⟩

theorem eval_inline_zero (hrhs : rhs.WellFormed) (hknown : known ≠ Var.constant)
    (hs : s known = value.eval s) : (rhs.inline 0 known value).eval s = rhs.eval s := by
  unfold inline
  split
  · rw [flush_zero, eval_replace_of_eq hrhs hknown hs]
  · rfl

end LinearForm

/-! ### One sweep -/

namespace Sweep

/-- The rows of a sweep, each with its new right-hand side. -/
def rewritten (eps : Rat) (known : Var) (value : LinearForm) (rows : List (Var × LinearForm)) :
    List (Var × LinearForm) :=
  rows.map fun row => (row.1, row.2.inline eps known value)

/-- The row mentions `known` and becomes constant as `value` takes its place. -/
def collapses (eps : Rat) (known : Var) (value : LinearForm) (row : Var × LinearForm) : Bool :=
  row.2.mentions known && (row.2.inline eps known value).isConstant

/-- The sweep that `run` makes of rows, each of them by itself. -/
def pass (eps : Rat) (known : Var) (value : LinearForm) (rows : List (Var × LinearForm)) :
    Sweep where
  kept := rewritten eps known value (rows.filter fun row => !collapses eps known value row)
  changed := rewritten eps known value (rows.filter fun row => row.2.mentions known)
  collapsed := (rewritten eps known value (rows.filter (collapses eps known value))).map fun row =>
    (row.1, row.2.constant)

/-- The sweep that `run` makes of rows that are not constant. -/
def ofRows (eps : Rat) (known : Var) (value : LinearForm) (rows : List (Var × LinearForm)) :
    Sweep where
  kept := (rewritten eps known value rows).filter fun row => !row.2.isConstant
  changed := rewritten eps known value (rows.filter fun row => row.2.mentions known)
  collapsed := ((rewritten eps known value rows).filter fun row => row.2.isConstant).map fun row =>
    (row.1, row.2.constant)

theorem pairwise_rewritten (h : rows.Pairwise fun a b => a.1 < b.1) :
    (rewritten eps known value rows).Pairwise fun a b => a.1 < b.1 :=
  List.pairwise_map.mpr h

theorem pass_cons_of_mentions {row : Var × LinearForm} (h : row.2.mentions known) :
    pass eps known value (row :: rows) =
      (pass eps known value rows).consChanged row.1 (row.2.inline eps known value) := by
  unfold pass consChanged LinearForm.value? rewritten collapses
  by_cases hc : (row.2.inline eps known value).isConstant
  · simp [h, hc]
  · simp [h, hc]

theorem pass_cons_of_not_mentions {row : Var × LinearForm} (h : ¬row.2.mentions known) :
    pass eps known value (row :: rows) = (pass eps known value rows).consKept row.1 row.2 := by
  unfold pass consKept rewritten collapses
  simp [h, LinearForm.inline_of_not_mentions h]

/-- A sweep goes through if it replaces nothing or nothing cyclic. -/
theorem run_eq_pass (eps : Rat) (h : ∀ row ∈ rows, row.2.mentions known →
    known ≠ Var.constant ∧ ¬value.mentions known) :
    run eps known value rows = .ok (pass eps known value rows) := by
  induction rows with
  | nil => rfl
  | cons row rows ih =>
    obtain ⟨v, rhs⟩ := row
    obtain ⟨hrow, h⟩ := List.forall_mem_cons.mp h
    rw [run, ih h]
    by_cases hm : rhs.mentions known
    · obtain ⟨hknown, hvalue⟩ := hrow hm
      rw [pass_cons_of_mentions hm, if_pos hm, LinearForm.substitute_eq_ok hknown hvalue,
        LinearForm.inline, if_pos hm]
      rfl
    · rw [pass_cons_of_not_mentions hm, if_neg hm]
      rfl

theorem pass_of_not_mentions (h : ∀ row ∈ rows, ¬row.2.mentions known) :
    pass eps known value rows = { kept := rows } := by
  induction rows with
  | nil => rfl
  | cons row rows ih =>
    obtain ⟨hm, h⟩ := List.forall_mem_cons.mp h
    rw [pass_cons_of_not_mentions hm, ih h]
    rfl

theorem pass_eq_ofRows (hrows : ∀ row ∈ rows, ¬row.2.isConstant) :
    pass eps known value rows = ofRows eps known value rows := by
  have hcollapses : ∀ row ∈ rows, collapses eps known value row =
      (row.2.inline eps known value).isConstant := by
    intro row hrow
    by_cases hm : row.2.mentions known
    · simp [collapses, hm]
    · simp [collapses, hm, LinearForm.inline_of_not_mentions hm, hrows row hrow]
  unfold pass ofRows rewritten
  simp only [List.filter_map]
  congr 2
  · exact List.filter_congr fun row hrow => congrArg Bool.not (hcollapses row hrow)
  · exact congrArg _ (List.filter_congr hcollapses)

theorem run_eq_error (hvalue : value.mentions known) (h : ∃ row ∈ rows, row.2.mentions known) :
    run eps known value rows = .error (.cyclicSubstitution known) := by
  induction rows with
  | nil => simp at h
  | cons row rows ih =>
    obtain ⟨v, rhs⟩ := row
    rw [run]
    by_cases hm : rhs.mentions known
    · rw [if_pos hm, LinearForm.substitute, if_pos hvalue]
      rfl
    · rw [if_neg hm, ih]
      · rfl
      · obtain ⟨row, hrow, hrhs⟩ := h
        rcases List.mem_cons.mp hrow with rfl | hrow
        · exact absurd hrhs hm
        · exact ⟨row, hrow, hrhs⟩

theorem ofRows_of_not_mentions (h : ∀ row ∈ rows, ¬row.2.mentions known)
    (hrows : ∀ row ∈ rows, ¬row.2.isConstant) : ofRows eps known value rows = { kept := rows } := by
  rw [← pass_eq_ofRows hrows, pass_of_not_mentions h]

theorem mem_kept_pass {row : Var × LinearForm} :
    row ∈ (pass eps known value rows).kept ↔ ∃ rhs, (row.1, rhs) ∈ rows ∧
      ¬collapses eps known value (row.1, rhs) ∧ row.2 = rhs.inline eps known value := by
  unfold pass rewritten
  simp only [List.mem_map, List.mem_filter, Bool.not_eq_true', Bool.not_eq_true]
  constructor
  · rintro ⟨⟨v, rhs⟩, ⟨hmem, hkept⟩, rfl⟩
    exact ⟨rhs, hmem, hkept, rfl⟩
  · rintro ⟨rhs, hmem, hkept, heq⟩
    exact ⟨(row.1, rhs), ⟨hmem, hkept⟩, Prod.ext rfl heq.symm⟩

theorem mem_collapsed_pass {row : Var × Rat} :
    row ∈ (pass eps known value rows).collapsed ↔ ∃ rhs, (row.1, rhs) ∈ rows ∧
      collapses eps known value (row.1, rhs) ∧ row.2 = (rhs.inline eps known value).constant := by
  unfold pass rewritten
  simp only [List.mem_map, List.mem_filter]
  constructor
  · rintro ⟨_, ⟨⟨v, rhs⟩, ⟨hmem, hcollapses⟩, rfl⟩, rfl⟩
    exact ⟨rhs, hmem, hcollapses, rfl⟩
  · rintro ⟨rhs, hmem, hcollapses, heq⟩
    exact ⟨_, ⟨(row.1, rhs), ⟨hmem, hcollapses⟩, rfl⟩, Prod.ext rfl heq.symm⟩

theorem perm_pass (eps : Rat) (known : Var) (value : LinearForm) (rows : List (Var × LinearForm)) :
    ((pass eps known value rows).collapsed.map Prod.fst ++
      (pass eps known value rows).kept.map Prod.fst).Perm (rows.map Prod.fst) := by
  have hperm := List.filter_append_perm (collapses eps known value) rows
  simpa [pass, rewritten, Function.comp_def] using hperm.map Prod.fst

theorem pairwise_kept_pass (h : rows.Pairwise fun a b => a.1 < b.1) :
    (pass eps known value rows).kept.Pairwise fun a b => a.1 < b.1 :=
  pairwise_rewritten (h.filter _)

theorem pairwise_collapsed_pass (h : rows.Pairwise fun a b => a.1 < b.1) :
    (pass eps known value rows).collapsed.Pairwise fun a b => a.1 < b.1 :=
  List.pairwise_map.mpr (pairwise_rewritten (h.filter _))

theorem mem_kept_ofRows {row : Var × LinearForm} :
    row ∈ (ofRows eps known value rows).kept ↔
      ∃ rhs, (row.1, rhs) ∈ rows ∧ row.2 = rhs.inline eps known value ∧ ¬row.2.isConstant := by
  unfold ofRows rewritten
  simp only [List.mem_filter, List.mem_map, Bool.not_eq_true', Bool.not_eq_true]
  constructor
  · rintro ⟨⟨⟨v, rhs⟩, hmem, rfl⟩, hc⟩
    exact ⟨rhs, hmem, rfl, hc⟩
  · rintro ⟨rhs, hmem, heq, hc⟩
    exact ⟨⟨(row.1, rhs), hmem, by rw [← heq]⟩, hc⟩

theorem mem_collapsed_ofRows {row : Var × Rat} :
    row ∈ (ofRows eps known value rows).collapsed ↔
      ∃ rhs, (row.1, rhs) ∈ rows ∧ (rhs.inline eps known value).isConstant ∧
        row.2 = (rhs.inline eps known value).constant := by
  unfold ofRows rewritten
  simp only [List.mem_map, List.mem_filter]
  constructor
  · rintro ⟨_, ⟨⟨⟨v, rhs⟩, hmem, rfl⟩, hc⟩, rfl⟩
    exact ⟨rhs, hmem, hc, rfl⟩
  · rintro ⟨rhs, hmem, hc, heq⟩
    exact ⟨_, ⟨⟨(row.1, rhs), hmem, rfl⟩, hc⟩, by rw [← heq]⟩

theorem mem_collapsed_iff (hrows : ∀ row ∈ rows, ¬row.2.isConstant) {c : Rat} :
    (w, c) ∈ (ofRows eps known value rows).collapsed ↔ ∃ rhs, (w, rhs) ∈ rows ∧
      rhs.mentions known ∧ ((rhs.replace known value).flush eps).value? = some c := by
  rw [mem_collapsed_ofRows]
  constructor
  · rintro ⟨rhs, hmem, hconst, hc⟩
    by_cases hm : rhs.mentions known
    · rw [LinearForm.inline, if_pos hm] at hconst hc
      exact ⟨rhs, hmem, hm, LinearForm.value?_eq_some_iff.mpr ⟨hconst, hc.symm⟩⟩
    · rw [LinearForm.inline_of_not_mentions hm] at hconst
      exact absurd hconst (hrows _ hmem)
  · rintro ⟨rhs, hmem, hm, hvalue⟩
    obtain ⟨hconst, hc⟩ := LinearForm.value?_eq_some_iff.mp hvalue
    refine ⟨rhs, hmem, ?_⟩
    rw [LinearForm.inline, if_pos hm]
    exact ⟨hconst, hc.symm⟩

end Sweep

namespace Progress

variable {setting : Setting} {progress : Progress}

/-- The progress that propagating `known = value` makes. -/
def inline (setting : Setting) (progress : Progress) (known : Var) (value : LinearForm) : Progress :=
  progress.afterSweep setting
    (Sweep.ofRows setting.threshold known value progress.store.dependents.toList)

theorem afterSweep_kept (setting : Setting) (progress : Progress) :
    progress.afterSweep setting { kept := progress.store.dependents.toList } = progress := by
  simp [afterSweep, Table.ofRows, Table.toList]

theorem propagate_of_run_error {misuse : Misuse} {pending : List (Var × LinearForm)}
    (hrun : Sweep.run setting.threshold known value progress.store.dependents.toList =
      .error misuse) :
    propagate setting progress ((known, value) :: pending) = .error misuse := by
  rw [propagate]
  split
  · rename_i hrun'
    cases hrun'.symm.trans hrun
    rfl
  · rename_i hrun'
    cases hrun'.symm.trans hrun

theorem propagate_of_run_ok {sweep : Sweep} {pending : List (Var × LinearForm)}
    (hrun : Sweep.run setting.threshold known value progress.store.dependents.toList =
      .ok sweep) :
    propagate setting progress ((known, value) :: pending) =
      propagate setting (progress.afterSweep setting sweep)
        (pending ++ sweep.collapsed.map fun (v, c) => (v, LinearForm.ofConstant c)) := by
  rw [propagate]
  split
  · rename_i hrun'
    cases hrun'.symm.trans hrun
  · rename_i hrun'
    cases hrun'.symm.trans hrun
    rfl

end Progress

end SolvedForm
