import SolvedForm.Solver.Assertion
import SolvedForm.Proofs.Solver.Inlining

/-!
# A new rule for a free variable

`store.addRule eps v rhs` is the store once `v = rhs` has become a rule and was propagated. The
solved form is kept (`WellFormed.addRule`), and at the threshold zero the solutions are the old ones
with `v = rhs` (`satisfies_addRule`).
-/

namespace SolvedForm

namespace Store

variable {store : Store} {eps : Rat} {v w : Var} {rhs : LinearForm} {c : Rat} {s : Var → Rat}

theorem knows_setDependent (hd : store.dependents.Sorted) :
    (store.setDependent v rhs).knows w = true ↔ w = v ∨ store.knows w = true := by
  simp only [knows, setDependent, Bool.or_eq_true, Table.contains, Table.get?_insert hd]
  split <;> simp_all

theorem not_knows_setDependent (hd : store.dependents.Sorted) (hne : w ≠ v)
    (hw : store.knows w = false) : (store.setDependent v rhs).knows w = false := by
  rw [← Bool.not_eq_true, knows_setDependent hd]
  rintro (heq | hk)
  · exact hne heq
  · exact Bool.false_ne_true (hw ▸ hk)

theorem WellFormed.setDependent (h : store.WellFormed) (hrhs : store.Admits v rhs)
    (hconst : ¬rhs.isConstant) (hfree : store.knows v = false)
    (hnew : ∀ row ∈ store.dependents.toList, ¬row.2.mentions v) :
    (store.setDependent v rhs).WellFormed := by
  have hmem : ∀ row ∈ (store.setDependent v rhs).dependents.toList,
      row = (v, rhs) ∨ row ∈ store.dependents.toList := fun row hrow =>
    ((Table.mem_toList_insert h.dependents_sorted).mp hrow).imp id And.left
  refine ⟨h.dependents_sorted.insert v rhs, h.solved_sorted, ?_, ?_, ?_, ?_, ?_, ?_⟩
  · rintro w ⟨hd, hs⟩
    obtain ⟨r, hr⟩ := (Table.contains_iff_exists (h.dependents_sorted.insert v rhs)).mp hd
    rcases hmem _ hr with heq | hr
    · cases heq
      rw [knows, Bool.or_eq_false_iff] at hfree
      exact Bool.false_ne_true (hfree.1 ▸ hs)
    · exact h.disjoint w ⟨Table.contains_of_mem h.dependents_sorted hr, hs⟩
  · exact not_knows_setDependent h.dependents_sorted hrhs.ne_constant.symm h.not_knows_constant
  · intro row hrow
    rcases hmem row hrow with rfl | hrow
    exacts [hrhs.wellFormed, h.rhs_wellFormed row hrow]
  · intro row hrow
    rcases hmem row hrow with rfl | hrow
    exacts [hrhs.valid, h.rhs_valid row hrow]
  · intro row hrow
    rcases hmem row hrow with rfl | hrow
    exacts [hconst, h.rhs_not_constant row hrow]
  -- the new rule mentions no known variable, and no old one mentions `v`
  · intro row hrow w hw
    rcases hmem row hrow with rfl | hrow
    · exact not_knows_setDependent h.dependents_sorted (hrhs.free w hw).1 (hrhs.free w hw).2
    · have hne : w ≠ v := fun heq => hnew row hrow (heq ▸ hw)
      exact not_knows_setDependent h.dependents_sorted hne (h.rhs_free row hrow w hw)

theorem satisfies_setDependent (hd : store.dependents.Sorted) (hfree : store.knows v = false) :
    (store.setDependent v rhs).Satisfies s ↔ s v = rhs.eval s ∧ store.Satisfies s := by
  have hne : ∀ row ∈ store.dependents.toList, row.1 ≠ v := by
    rintro row hrow rfl
    exact contains_dependents_of_not_knows hfree (Table.contains_of_mem hd hrow)
  simp only [Satisfies, setDependent, Table.mem_toList_insert hd]
  constructor
  · rintro ⟨hdep, hsol⟩
    exact ⟨hdep _ (.inl rfl), fun row hrow => hdep row (.inr ⟨hrow, hne row hrow⟩), hsol⟩
  · rintro ⟨hv, hdep, hsol⟩
    refine ⟨?_, hsol⟩
    rintro row (rfl | ⟨hrow, -⟩)
    · exact hv
    · exact hdep row hrow

theorem satisfies_setSolved (hs : store.solved.Sorted) (hfree : store.knows v = false) :
    (store.setSolved v c).Satisfies s ↔ s v = c ∧ store.Satisfies s := by
  have hne : ∀ row ∈ store.solved.toList, row.1 ≠ v := fun _ => ne_of_mem_solved hs hfree
  simp only [Satisfies, setSolved, Table.mem_toList_insert hs]
  constructor
  · rintro ⟨hdep, hsol⟩
    exact ⟨hsol _ (.inl rfl), hdep, fun row hrow => hsol row (.inr ⟨hrow, hne row hrow⟩)⟩
  · rintro ⟨hv, hdep, hsol⟩
    refine ⟨hdep, ?_⟩
    rintro row (rfl | ⟨hrow, -⟩)
    · exact hv
    · exact hsol row hrow

def addRule (store : Store) (eps : Rat) (v : Var) (rhs : LinearForm) : Store :=
  match rhs.value? with
  | some c => (store.setSolved v c).inline eps v (LinearForm.ofConstant c)
  | none => (store.inline eps v rhs).setDependent v rhs

theorem Admits.inline (hrhs : store.Admits v rhs) (h : store.WellFormedBut w) {value : LinearForm} :
    (store.inline eps w value).Admits v rhs :=
  ⟨hrhs.ne_constant, hrhs.wellFormed, hrhs.valid, fun u hu => by
    rw [h.knows_inline]
    exact hrhs.free u hu⟩

theorem WellFormed.addRule (h : store.WellFormed) (hrhs : store.Admits v rhs)
    (hfree : store.knows v = false) : (store.addRule eps v rhs).WellFormed := by
  unfold Store.addRule
  split
  · rename_i c _
    exact (h.setSolved hrhs.ne_constant hfree c).inline (.ofConstant hrhs.ne_constant c)
  · rename_i hnone
    have hbut := h.but (contains_dependents_of_not_knows hfree)
    refine (hbut.inline hrhs).setDependent (hrhs.inline hbut)
      (LinearForm.value?_eq_none_iff.mp hnone) (by rw [hbut.knows_inline, hfree])
      fun row => hbut.not_mentions_known_inline hrhs

theorem knows_addRule (h : store.WellFormed) (hrhs : store.Admits v rhs)
    (hfree : store.knows v = false) :
    (store.addRule eps v rhs).knows w = true ↔ w = v ∨ store.knows w = true := by
  unfold Store.addRule
  split
  · rename_i c _
    rw [(h.setSolved hrhs.ne_constant hfree c).knows_inline, knows_setSolved h.solved_sorted]
  · have hbut := h.but (contains_dependents_of_not_knows hfree)
    rw [knows_setDependent hbut.sorted_dependents_inline, hbut.knows_inline]

theorem rule?_addRule (h : store.WellFormed) (hrhs : store.Admits v rhs)
    (hfree : store.knows v = false) : (store.addRule eps v rhs).rule? v = some rhs := by
  have hwf : (store.addRule eps v rhs).WellFormed := h.addRule hrhs hfree
  unfold Store.addRule at hwf ⊢
  split at hwf
  · rename_i c hc
    have hbut := h.setSolved hrhs.ne_constant hfree c
    have hsolved : (v, c) ∈ (store.setSolved v c).solved.toList :=
      (Table.mem_toList_insert h.solved_sorted).mpr (.inl rfl)
    rw [LinearForm.eq_ofConstant_of_value? hrhs.valid hc]
    exact rule?_of_mem_solved hwf (hbut.mem_solved_inline.mpr (.inr hsolved))
  · have hbut := h.but (contains_dependents_of_not_knows hfree)
    exact rule?_of_mem_dependents hwf
      ((Table.mem_toList_insert hbut.sorted_dependents_inline).mpr (.inl rfl))

theorem addRule_ne_self (h : store.WellFormed) (hrhs : store.Admits v rhs)
    (hfree : store.knows v = false) : store.addRule eps v rhs ≠ store := by
  intro heq
  have hv : (store.addRule eps v rhs).knows v = true := (knows_addRule h hrhs hfree).mpr (.inl rfl)
  rw [heq, hfree] at hv
  cases hv

theorem satisfies_addRule (h : store.WellFormed) (hrhs : store.Admits v rhs)
    (hfree : store.knows v = false) :
    (store.addRule 0 v rhs).Satisfies s ↔ s v = rhs.eval s ∧ store.Satisfies s := by
  unfold Store.addRule
  split
  · rename_i c hc
    obtain ⟨hconst, rfl⟩ := LinearForm.value?_eq_some_iff.mp hc
    have hbut := h.setSolved hrhs.ne_constant hfree rhs.constant
    have hadmits : (store.setSolved v rhs.constant).Admits v (.ofConstant rhs.constant) :=
      .ofConstant hrhs.ne_constant rhs.constant
    rw [LinearForm.eval_of_isConstant hconst, ← satisfies_setSolved h.solved_sorted hfree]
    constructor
    · intro hs
      refine (hbut.satisfies_inline hadmits ?_).mp hs
      refine hs.2 (v, rhs.constant) (hbut.mem_solved_inline.mpr (.inr ?_))
      exact (Table.mem_toList_insert h.solved_sorted).mpr (.inl rfl)
    · intro hs
      refine (hbut.satisfies_inline hadmits ?_).mpr hs
      exact hs.2 (v, rhs.constant) ((Table.mem_toList_insert h.solved_sorted).mpr (.inl rfl))
  · have hbut := h.but (contains_dependents_of_not_knows hfree)
    rw [satisfies_setDependent hbut.sorted_dependents_inline (by rw [hbut.knows_inline, hfree])]
    exact and_congr_right fun hs => hbut.satisfies_inline hrhs hs

end Store

namespace Progress

variable {setting : Setting} {progress : Progress} {v : Var} {rhs : LinearForm}

/-- The progress that `addRule` makes. -/
def withRule (setting : Setting) (progress : Progress) (v : Var) (rhs : LinearForm) : Progress :=
  match rhs.value? with
  | some c => (progress.learn setting (v, c)).inline setting v (LinearForm.ofConstant c)
  | none =>
    let progress := (progress.record (.dependency v rhs)).inline setting v rhs
    progress.withStore (progress.store.setDependent v rhs)

theorem store_withRule (setting : Setting) (progress : Progress) (v : Var) (rhs : LinearForm) :
    (progress.withRule setting v rhs).store =
      progress.store.addRule setting.threshold v rhs := by
  unfold withRule Store.addRule
  split
  · rw [store_inline]
    rfl
  · show (Progress.inline ..).store.setDependent v rhs = _
    rw [store_inline]
    rfl

theorem addRule_eq_ok (h : progress.store.WellFormed) (hrhs : progress.store.Admits v rhs)
    (hfree : progress.store.knows v = false) :
    progress.addRule setting v rhs = .ok (progress.withRule setting v rhs) := by
  unfold addRule withRule
  cases rhs.value? with
  | some c =>
    have hbut : (progress.learn setting (v, c)).store.WellFormedBut v :=
      h.setSolved hrhs.ne_constant hfree c
    exact propagate_eq_ok hbut (.ofConstant hrhs.ne_constant c)
  | none =>
    have hbut : (progress.record (.dependency v rhs)).store.WellFormedBut v :=
      h.but (Store.contains_dependents_of_not_knows hfree)
    dsimp only
    rw [propagate_eq_ok hbut hrhs]
    rfl

end Progress

end SolvedForm
