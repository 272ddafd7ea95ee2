import SolvedForm.Proofs.Solver.Propagation
import SolvedForm.Proofs.Store.Completion

/-!
# Inlining a rule into a store

`store.inline eps known value` is the store after the rule `known = value` was propagated
(`propagate_eq_ok`, `store_inline`). Before that the store may still mention `known`, which may be
solved already: it is `WellFormedBut known`. Afterwards it is in solved form
(`WellFormedBut.inline`), knows the same variables, and at the threshold zero it has the same
solutions among the assignments with `known = value` (`satisfies_inline`).
-/

namespace SolvedForm

namespace Table

variable {α : Type} {t : Table α} {rows : List (Var × α)}

theorem mem_foldl_insert (ht : t.Sorted) (hrows : rows.Pairwise fun a b => a.1 < b.1)
    (hnew : ∀ row ∈ rows, ¬t.contains row.1) {x : Var × α} :
    x ∈ (rows.foldl (fun t row => t.insert row.1 row.2) t).toList ↔ x ∈ rows ∨ x ∈ t.toList := by
  induction rows generalizing t with
  | nil => simp
  | cons row rows ih =>
    obtain ⟨hlt, hrows⟩ := List.pairwise_cons.mp hrows
    obtain ⟨hrow, hnew⟩ := List.forall_mem_cons.mp hnew
    rw [List.foldl_cons, ih (ht.insert _ _) hrows, mem_toList_insert ht, List.mem_cons]
    · constructor
      · rintro (h | rfl | ⟨h, -⟩)
        · exact .inl (.inr h)
        · exact .inl (.inl rfl)
        · exact .inr h
      · rintro ((rfl | h) | h)
        · exact .inr (.inl rfl)
        · exact .inl h
        · refine .inr (.inr ⟨h, fun heq => hrow ?_⟩)
          exact heq ▸ contains_of_mem ht h
    · intro other hother
      rw [contains, get?_insert ht, if_neg (Nat.ne_of_gt (hlt _ hother))]
      exact hnew _ hother

end Table

namespace Store

variable {store : Store} {eps : Rat} {known v w : Var} {value p : LinearForm} {c : Rat}
  {s : Var → Rat}

/-- `WellFormed`, except that right-hand sides may mention `known`. -/
structure WellFormedBut (known : Var) (store : Store) : Prop where
  dependents_sorted : store.dependents.Sorted
  solved_sorted : store.solved.Sorted
  disjoint : ∀ v, ¬(store.dependents.contains v ∧ store.solved.contains v)
  not_knows_constant : store.knows Var.constant = false
  rhs_wellFormed : ∀ row ∈ store.dependents.toList, row.2.WellFormed
  rhs_valid : ∀ row ∈ store.dependents.toList, row.2.valid
  rhs_not_constant : ∀ row ∈ store.dependents.toList, ¬row.2.isConstant
  not_dependent : ¬store.dependents.contains known
  rhs_free : ∀ row ∈ store.dependents.toList, ∀ v, row.2.mentions v → v ≠ known →
    store.knows v = false

/-- The form `value` can become the rule of `known`. -/
structure Admits (store : Store) (known : Var) (value : LinearForm) : Prop where
  ne_constant : known ≠ Var.constant
  wellFormed : value.WellFormed
  valid : value.valid
  free : ∀ w, value.mentions w → w ≠ known ∧ store.knows w = false

theorem Admits.not_mentions (h : store.Admits known value) : ¬value.mentions known :=
  fun hm => (h.free _ hm).1 rfl

theorem Admits.ofConstant (hv : v ≠ Var.constant) (c : Rat) :
    store.Admits v (LinearForm.ofConstant c) where
  ne_constant := hv
  wellFormed := .ofConstant c
  valid := rfl
  free := fun _ hm => absurd hm (LinearForm.not_mentions_of_isConstant (.ofConstant c) rfl)

theorem knows_iff (hd : store.dependents.Sorted) (hs : store.solved.Sorted) :
    store.knows v = true ↔
      (∃ c, (v, c) ∈ store.solved.toList) ∨ ∃ rhs, (v, rhs) ∈ store.dependents.toList := by
  rw [knows, Bool.or_eq_true, Table.contains_iff_exists hs, Table.contains_iff_exists hd]

theorem knows_of_mem_dependents (hd : store.dependents.Sorted) {row : Var × LinearForm}
    (h : row ∈ store.dependents.toList) : store.knows row.1 = true := by
  rw [knows, Table.contains_of_mem hd h, Bool.or_true]

theorem ne_of_mem_solved (hs : store.solved.Sorted) (hfree : store.knows v = false)
    {row : Var × Rat} (h : row ∈ store.solved.toList) : row.1 ≠ v := by
  rintro rfl
  rw [knows, Table.contains_of_mem hs h, Bool.true_or] at hfree
  cases hfree

theorem contains_dependents_of_not_knows (h : store.knows v = false) :
    ¬store.dependents.contains v := fun hc => by
  rw [knows, hc, Bool.or_true] at h
  exact Bool.false_ne_true h.symm

theorem knows_setSolved (hs : store.solved.Sorted) :
    (store.setSolved v c).knows w = true ↔ w = v ∨ store.knows w = true := by
  simp only [knows, setSolved, Bool.or_eq_true, Table.contains, Table.get?_insert hs]
  split <;> simp_all

theorem WellFormed.but (h : store.WellFormed) (hknown : ¬store.dependents.contains known) :
    store.WellFormedBut known :=
  ⟨h.dependents_sorted, h.solved_sorted, h.disjoint, h.not_knows_constant, h.rhs_wellFormed,
    h.rhs_valid, h.rhs_not_constant, hknown, fun row hrow v hv _ => h.rhs_free row hrow v hv⟩

/-- A free variable that is solved may be mentioned until its value is propagated. -/
theorem WellFormed.setSolved (h : store.WellFormed) (hv : v ≠ Var.constant)
    (hfree : store.knows v = false) (c : Rat) : (store.setSolved v c).WellFormedBut v where
  dependents_sorted := h.dependents_sorted
  solved_sorted := h.solved_sorted.insert v c
  disjoint := fun w ⟨hd, hs⟩ => by
    have hs : (store.solved.insert v c).contains w = true := hs
    rw [Table.contains, Table.get?_insert h.solved_sorted] at hs
    split at hs
    · subst w
      exact contains_dependents_of_not_knows hfree hd
    · exact h.disjoint w ⟨hd, hs⟩
  not_knows_constant := by
    rw [← Bool.not_eq_true, knows_setSolved h.solved_sorted]
    rintro (heq | hk)
    · exact hv heq.symm
    · exact Bool.false_ne_true (h.not_knows_constant ▸ hk)
  rhs_wellFormed := h.rhs_wellFormed
  rhs_valid := h.rhs_valid
  rhs_not_constant := h.rhs_not_constant
  not_dependent := fun hd => contains_dependents_of_not_knows hfree hd
  rhs_free := fun row hrow w hw hne => by
    rw [← Bool.not_eq_true, knows_setSolved h.solved_sorted]
    rintro (heq | hk)
    · exact hne heq
    · exact Bool.false_ne_true (h.rhs_free row hrow w hw ▸ hk)

/-! ### The store after a sweep -/

def inline (store : Store) (eps : Rat) (known : Var) (value : LinearForm) : Store :=
  let sweep := Sweep.ofRows eps known value store.dependents.toList
  { dependents := Table.ofRows sweep.kept
    solved := sweep.collapsed.foldl (fun solved row => solved.insert row.1 row.2) store.solved }

theorem mem_dependents_inline {row : Var × LinearForm} :
    row ∈ (store.inline eps known value).dependents.toList ↔
      ∃ rhs, (row.1, rhs) ∈ store.dependents.toList ∧ row.2 = rhs.inline eps known value ∧
        ¬row.2.isConstant :=
  Sweep.mem_kept_ofRows

namespace WellFormedBut

theorem pairwise_collapsed (h : store.WellFormedBut known) :
    (Sweep.ofRows eps known value store.dependents.toList).collapsed.Pairwise
      fun a b => a.1 < b.1 :=
  List.pairwise_map.mpr ((Sweep.pairwise_rewritten h.dependents_sorted).filter _)

theorem not_solved_of_mem_collapsed (h : store.WellFormedBut known) {row : Var × Rat}
    (hrow : row ∈ (Sweep.ofRows eps known value store.dependents.toList).collapsed) :
    ¬store.solved.contains row.1 := fun hs => by
  obtain ⟨rhs, hmem, -, -⟩ := Sweep.mem_collapsed_ofRows.mp hrow
  exact h.disjoint row.1 ⟨Table.contains_of_mem h.dependents_sorted hmem, hs⟩

theorem mem_solved_inline (h : store.WellFormedBut known) {row : Var × Rat} :
    row ∈ (store.inline eps known value).solved.toList ↔
      (∃ rhs, (row.1, rhs) ∈ store.dependents.toList ∧ (rhs.inline eps known value).isConstant ∧
        row.2 = (rhs.inline eps known value).constant) ∨ row ∈ store.solved.toList := by
  rw [← Sweep.mem_collapsed_ofRows]
  exact Table.mem_foldl_insert h.solved_sorted h.pairwise_collapsed
    fun _ => h.not_solved_of_mem_collapsed

theorem sorted_dependents_inline (h : store.WellFormedBut known) :
    (store.inline eps known value).dependents.Sorted :=
  (Sweep.pairwise_rewritten h.dependents_sorted).filter _

theorem sorted_solved_inline (h : store.WellFormedBut known) :
    (store.inline eps known value).solved.Sorted :=
  Table.sorted_foldl_insert h.solved_sorted _

/-- A sweep moves variables from the dependent to the solved ones, and knows no others. -/
theorem knows_inline (h : store.WellFormedBut known) (v : Var) :
    (store.inline eps known value).knows v = store.knows v := by
  rw [Bool.eq_iff_iff, knows_iff h.sorted_dependents_inline h.sorted_solved_inline,
    knows_iff h.dependents_sorted h.solved_sorted]
  constructor
  · rintro (⟨c, hc⟩ | ⟨rhs, hrhs⟩)
    · rcases h.mem_solved_inline.mp hc with ⟨rhs, hmem, -, -⟩ | hc
      · exact .inr ⟨rhs, hmem⟩
      · exact .inl ⟨c, hc⟩
    · obtain ⟨rhs, hmem, -, -⟩ := mem_dependents_inline.mp hrhs
      exact .inr ⟨rhs, hmem⟩
  · rintro (⟨c, hc⟩ | ⟨rhs, hrhs⟩)
    · exact .inl ⟨c, h.mem_solved_inline.mpr (.inr hc)⟩
    · by_cases hconst : (rhs.inline eps known value).isConstant
      · exact .inl ⟨_, h.mem_solved_inline.mpr (.inl ⟨rhs, hrhs, hconst, rfl⟩)⟩
      · exact .inr ⟨_, mem_dependents_inline.mpr ⟨rhs, hrhs, rfl, hconst⟩⟩

theorem disjoint_inline (h : store.WellFormedBut known) (v : Var) :
    ¬((store.inline eps known value).dependents.contains v ∧
      (store.inline eps known value).solved.contains v) := by
  rw [Table.contains_iff_exists h.sorted_dependents_inline,
    Table.contains_iff_exists h.sorted_solved_inline]
  rintro ⟨⟨r, hr⟩, ⟨c, hc⟩⟩
  obtain ⟨rhs, hmem, heq, hn⟩ := mem_dependents_inline.mp hr
  rcases h.mem_solved_inline.mp hc with ⟨rhs', hmem', hconst, -⟩ | hc
  · cases Table.key_unique h.dependents_sorted hmem hmem' rfl
    exact hn (heq ▸ hconst)
  · exact h.disjoint v
      ⟨Table.contains_of_mem h.dependents_sorted hmem, Table.contains_of_mem h.solved_sorted hc⟩

/-- A sweep restores the solved form. -/
theorem inline (h : store.WellFormedBut known) (hvalue : store.Admits known value) :
    (store.inline eps known value).WellFormed where
  dependents_sorted := h.sorted_dependents_inline
  solved_sorted := h.sorted_solved_inline
  disjoint := h.disjoint_inline
  not_knows_constant := by rw [h.knows_inline, h.not_knows_constant]
  rhs_wellFormed := fun row hrow => by
    obtain ⟨rhs, hmem, heq, -⟩ := mem_dependents_inline.mp hrow
    exact heq ▸ (h.rhs_wellFormed _ hmem).inline hvalue.wellFormed
  rhs_valid := fun row hrow => by
    obtain ⟨rhs, hmem, heq, -⟩ := mem_dependents_inline.mp hrow
    exact heq ▸ LinearForm.valid_inline (h.rhs_valid _ hmem) hvalue.valid
  rhs_not_constant := fun row hrow => by
    obtain ⟨rhs, -, -, hn⟩ := mem_dependents_inline.mp hrow
    exact hn
  rhs_free := fun row hrow w hw => by
    obtain ⟨rhs, hmem, heq, -⟩ := mem_dependents_inline.mp hrow
    rw [heq] at hw
    rw [h.knows_inline]
    rcases LinearForm.mentions_of_mentions_inline (h.rhs_wellFormed _ hmem) hvalue.wellFormed hw
      with ⟨hne, hw⟩ | hw
    · exact h.rhs_free _ hmem w hw hne
    · exact (hvalue.free w hw).2

/-- A sweep puts `value` for `known` into every rule, whether the rule stays a dependency or becomes
a solution. -/
theorem rule?_inline (h : store.WellFormedBut known) (hvalue : store.Admits known value) (w : Var) :
    (store.inline eps known value).rule? w =
      (store.rule? w).map fun rhs => rhs.inline eps known value := by
  have hwf : (store.inline eps known value).WellFormed := h.inline hvalue
  cases hs : store.solved.get? w with
  | some c =>
    have hc : (w, c) ∈ store.solved.toList := (Table.get?_eq_some_iff h.solved_sorted).mp hs
    have hconst : ¬(LinearForm.ofConstant c).mentions known :=
      LinearForm.not_mentions_of_isConstant (.ofConstant c) rfl
    rw [rule?_of_mem_solved hwf (h.mem_solved_inline.mpr (.inr hc)), rule?, hs, Option.map_some,
      LinearForm.inline_of_not_mentions hconst]
  | none =>
    cases hd : store.dependents.get? w with
    | none =>
      have hnone : store.rule? w = none := by rw [rule?, hs, hd]
      rw [hnone, Option.map_none, rule?_eq_none_iff, h.knows_inline, ← rule?_eq_none_iff, hnone]
    | some rhs =>
      have hrhs : (w, rhs) ∈ store.dependents.toList :=
        (Table.get?_eq_some_iff h.dependents_sorted).mp hd
      have hrule : store.rule? w = some rhs := by rw [rule?, hs, hd]
      rw [hrule, Option.map_some]
      -- a rule that becomes constant moves to the solved ones, with the same form
      by_cases hconst : (rhs.inline eps known value).isConstant
      · have hsolved : (w, (rhs.inline eps known value).constant) ∈
            (store.inline eps known value).solved.toList :=
          h.mem_solved_inline.mpr (.inl ⟨rhs, hrhs, hconst, rfl⟩)
        rw [rule?_of_mem_solved hwf hsolved]
        refine congrArg some (LinearForm.eq_ofConstant_of_value? ?_ ?_).symm
        · exact LinearForm.valid_inline (h.rhs_valid _ hrhs) hvalue.valid
        · exact LinearForm.value?_eq_some_iff.mpr ⟨hconst, rfl⟩
      · exact rule?_of_mem_dependents hwf (mem_dependents_inline.mpr ⟨rhs, hrhs, rfl, hconst⟩)

theorem not_mentions_known_inline (h : store.WellFormedBut known) (hvalue : store.Admits known value)
    {row : Var × LinearForm} (hrow : row ∈ (store.inline eps known value).dependents.toList) :
    ¬row.2.mentions known := fun hm => by
  obtain ⟨rhs, hmem, heq, -⟩ := mem_dependents_inline.mp hrow
  rw [heq] at hm
  rcases LinearForm.mentions_of_mentions_inline (h.rhs_wellFormed _ hmem) hvalue.wellFormed hm
    with ⟨hne, -⟩ | hm
  · exact hne rfl
  · exact hvalue.not_mentions hm

/-- At the threshold zero a sweep for `known = value` only rewrites what the store says. -/
theorem satisfies_inline (h : store.WellFormedBut known) (hvalue : store.Admits known value)
    (hs : s known = value.eval s) : (store.inline 0 known value).Satisfies s ↔ store.Satisfies s := by
  have heval : ∀ row ∈ store.dependents.toList,
      (row.2.inline 0 known value).eval s = row.2.eval s := fun row hrow =>
    LinearForm.eval_inline_zero (h.rhs_wellFormed _ hrow) hvalue.ne_constant hs
  constructor
  · rintro ⟨hdep, hsol⟩
    refine ⟨fun row hrow => ?_, fun row hrow => hsol row (h.mem_solved_inline.mpr (.inr hrow))⟩
    rw [← heval row hrow]
    by_cases hconst : (row.2.inline 0 known value).isConstant
    · rw [LinearForm.eval_of_isConstant hconst]
      exact hsol (row.1, (row.2.inline 0 known value).constant)
        (h.mem_solved_inline.mpr (.inl ⟨row.2, hrow, hconst, rfl⟩))
    · exact hdep (row.1, row.2.inline 0 known value)
        (mem_dependents_inline.mpr ⟨row.2, hrow, rfl, hconst⟩)
  · rintro ⟨hdep, hsol⟩
    refine ⟨fun row hrow => ?_, fun row hrow => ?_⟩
    · obtain ⟨rhs, hmem, heq, -⟩ := mem_dependents_inline.mp hrow
      rw [heq, heval _ hmem]
      exact hdep _ hmem
    · rcases h.mem_solved_inline.mp hrow with ⟨rhs, hmem, hconst, heq⟩ | hrow
      · rw [heq, ← LinearForm.eval_of_isConstant hconst s, heval _ hmem]
        exact hdep _ hmem
      · exact hsol row hrow

end WellFormedBut

end Store

namespace Progress

variable {setting : Setting} {progress : Progress} {known : Var} {value : LinearForm}

theorem store_inline (setting : Setting) (progress : Progress) (known : Var) (value : LinearForm) :
    (progress.inline setting known value).store =
      progress.store.inline setting.threshold known value :=
  store_foldl_learn ..

theorem pass_eq_inline (hrows : ∀ row ∈ progress.store.dependents.toList, ¬row.2.isConstant) :
    progress.pass setting known value = progress.inline setting known value := by
  rw [pass, Sweep.pass_eq_ofRows hrows]
  rfl

theorem propagate_eq_ok (h : progress.store.WellFormedBut known)
    (hvalue : progress.store.Admits known value) :
    progress.propagate setting [(known, value)] = .ok (progress.inline setting known value) := by
  have hworks := worksOff_pass setting ⟨h.dependents_sorted, h.solved_sorted, h.rhs_wellFormed⟩
    hvalue.wellFormed hvalue.not_mentions fun row hrow => ?_
  · rw [hworks.propagate_eq, pass_eq_inline h.rhs_not_constant]
  have hk := Store.knows_of_mem_dependents h.dependents_sorted hrow
  refine ⟨fun hm => ?_, fun row' hrow' hm => ?_⟩
  · rw [(hvalue.free _ hm).2] at hk
    exact Bool.false_ne_true hk
  · have hne : row.1 ≠ known := by
      rintro rfl
      exact h.not_dependent (Table.contains_of_mem h.dependents_sorted hrow)
    rw [h.rhs_free row' hrow' _ hm hne] at hk
    exact Bool.false_ne_true hk

end Progress

end SolvedForm
