import SolvedForm.Solver.Retirement
import SolvedForm.Proofs.Solver.Assertion

/-!
# Retiring a variable

`store.retire eps v` is the store after `v` was retired. It is in solved form again
(`WellFormed.retire`) and mentions `v` nowhere (`not_mentions_retire`). At the threshold zero
retiring is projection: the solutions are those that some value of `v` extends to a solution of the
store before (`satisfies_retire`).
-/

namespace SolvedForm

theorem Table.erase_of_not_contains {α : Type} {t : Table α} {v : Var} (h : ¬t.contains v) :
    t.erase v = t := by
  unfold Table.contains Table.get? at h
  unfold Table.erase
  dsimp only
  split
  · rename_i hlt
    rw [Array.getElem?_eq_getElem hlt] at h
    split
    · rename_i hv
      exact absurd (by simp [hv]) h
    · rfl
  · rfl

variable {setting : Setting} {store store' : Store} {p rhs : LinearForm} {v w y : Var} {eps : Rat}
  {s : Var → Rat}

namespace LinearForm

/-- The form that equals `v` where `y = rhs`. -/
def invert (rhs : LinearForm) (y v : Var) : LinearForm :=
  ((ofConstant 0).withCoeff y 1 - rhs.withCoeff v 0).scale (rhs.coeff v)⁻¹

theorem solvedFor_eq_ok (hrhs : rhs.WellFormed) (hy : y ≠ Var.constant) (hm : rhs.mentions v) :
    rhs.solvedFor y v = .ok (rhs.invert y v) := by
  unfold solvedFor ofVar setTerm Division.reciprocal
  rw [if_neg (ne_constant_of_mentions hrhs hm), if_neg hy,
    if_neg (coeff_ne_zero_of_mentions hrhs hm)]
  rfl

theorem WellFormed.invert (hrhs : rhs.WellFormed) (hy : y ≠ Var.constant)
    (hv : v ≠ Var.constant) : (rhs.invert y v).WellFormed :=
  (((WellFormed.ofConstant 0).withCoeff hy 1).sub (hrhs.withCoeff hv 0)).scale _

theorem valid_invert (hrhs : rhs.valid) (y v : Var) : (rhs.invert y v).valid := by
  unfold invert scale
  split <;> exact hrhs

theorem mentions_of_mentions_invert (hrhs : rhs.WellFormed) (hy : y ≠ Var.constant)
    (hv : v ≠ Var.constant) (h : (rhs.invert y v).mentions w) :
    w = y ∨ w ≠ v ∧ rhs.mentions w := by
  have hvar := (WellFormed.ofConstant 0).withCoeff hy 1
  rcases mentions_of_mentions_sub hvar (hrhs.withCoeff hv 0)
    (mentions_of_mentions_scale (hvar.sub (hrhs.withCoeff hv 0)) h) with hw | hw
  · left
    by_contra hne
    refine coeff_ne_zero_of_mentions hvar hw ?_
    rw [coeff_withCoeff (.ofConstant 0) hy, if_neg hne]
    exact coeff_of_not_mentions (ne_constant_of_mentions hvar hw)
      (not_mentions_of_isConstant (.ofConstant 0) rfl)
  · exact .inr ((mentions_withCoeff_zero hrhs hv).mp hw)

theorem eq_eval_invert_iff (hrhs : rhs.WellFormed) (hy : y ≠ Var.constant) (hm : rhs.mentions v) :
    s v = (rhs.invert y v).eval s ↔ s y = rhs.eval s := by
  have hc := coeff_ne_zero_of_mentions hrhs hm
  have hvar : ((ofConstant 0).withCoeff y 1).eval s = s y := by
    rw [eval_withCoeff (.ofConstant 0) hy, eval_ofConstant, coeff_of_not_mentions hy
      (not_mentions_of_isConstant (.ofConstant 0) rfl)]
    ring
  rw [invert, eval_scale, eval_sub, hvar, eval_withCoeff hrhs (ne_constant_of_mentions hrhs hm)]
  constructor
  · intro hs
    field_simp at hs
    linarith
  · intro hs
    field_simp
    linarith

end LinearForm

namespace Store

theorem WellFormed.of_subset (h : store.WellFormed) (hd : store'.dependents.Sorted)
    (hs : store'.solved.Sorted)
    (hdsub : ∀ row ∈ store'.dependents.toList, row ∈ store.dependents.toList)
    (hssub : ∀ row ∈ store'.solved.toList, row ∈ store.solved.toList) : store'.WellFormed := by
  have hknows : ∀ v, store'.knows v = true → store.knows v = true := fun v => by
    rw [knows_iff hd hs, knows_iff h.dependents_sorted h.solved_sorted]
    exact Or.imp (fun ⟨c, hc⟩ => ⟨c, hssub _ hc⟩) fun ⟨rhs, hrhs⟩ => ⟨rhs, hdsub _ hrhs⟩
  have hunknown : ∀ v, store.knows v = false → store'.knows v = false := fun v hv => by
    rw [← Bool.not_eq_true]
    exact fun hk => Bool.false_ne_true (hv ▸ hknows v hk)
  refine ⟨hd, hs, fun v => ?_, hunknown _ h.not_knows_constant,
    fun row hrow => h.rhs_wellFormed row (hdsub row hrow),
    fun row hrow => h.rhs_valid row (hdsub row hrow),
    fun row hrow => h.rhs_not_constant row (hdsub row hrow),
    fun row hrow v hv => hunknown v (h.rhs_free row (hdsub row hrow) v hv)⟩
  rintro ⟨hvd, hvs⟩
  obtain ⟨rhs, hrhs⟩ := (Table.contains_iff_exists hd).mp hvd
  obtain ⟨c, hc⟩ := (Table.contains_iff_exists hs).mp hvs
  exact h.disjoint v ⟨Table.contains_of_mem h.dependents_sorted (hdsub _ hrhs),
    Table.contains_of_mem h.solved_sorted (hssub _ hc)⟩

def forget (store : Store) (v : Var) : Store where
  dependents := store.dependents.erase v
  solved := store.solved.erase v

theorem WellFormed.forget (h : store.WellFormed) (v : Var) : (store.forget v).WellFormed :=
  h.of_subset (h.dependents_sorted.erase v) (h.solved_sorted.erase v)
    (fun _ hrow => ((Table.mem_toList_erase h.dependents_sorted).mp hrow).1)
    fun _ hrow => ((Table.mem_toList_erase h.solved_sorted).mp hrow).1

theorem rule?_forget (h : store.WellFormed) (v w : Var) :
    (store.forget v).rule? w = if w = v then none else store.rule? w := by
  simp only [rule?, forget, Table.get?_erase h.dependents_sorted, Table.get?_erase h.solved_sorted]
  by_cases hw : w = v
  · rw [if_pos hw, if_pos hw, if_pos hw]
  · rw [if_neg hw, if_neg hw, if_neg hw]

theorem not_knows_forget (h : store.WellFormed) (v : Var) : (store.forget v).knows v = false := by
  rw [← rule?_eq_none_iff, rule?_forget h, if_pos rfl]

theorem forget_of_not_knows (hv : store.knows v = false) : store.forget v = store := by
  rw [knows, Bool.or_eq_false_iff, ← Bool.not_eq_true, ← Bool.not_eq_true] at hv
  rw [forget, Table.erase_of_not_contains hv.1, Table.erase_of_not_contains hv.2]

theorem satisfies_iff_forget (h : store.WellFormed) {q : LinearForm} (hq : store.rule? v = some q) :
    store.Satisfies s ↔ s v = q.eval s ∧ (store.forget v).Satisfies s := by
  have hrule : ∀ w r, (store.forget v).rule? w = some r ↔ w ≠ v ∧ store.rule? w = some r := by
    intro w r
    rw [rule?_forget h]
    split <;> simp_all
  rw [satisfies_iff h, satisfies_iff (h.forget v)]
  constructor
  · exact fun hs => ⟨hs v q hq, fun w r hr => hs w r ((hrule w r).mp hr).2⟩
  · rintro ⟨hv, hs⟩ w r hr
    by_cases hw : w = v
    · subst w
      cases hq.symm.trans hr
      exact hv
    · exact hs w r ((hrule w r).mpr ⟨hw, hr⟩)

theorem satisfies_update_iff (h : store.WellFormed) (hv : store.knows v = false)
    (hm : ∀ row ∈ store.dependents.toList, ¬row.2.mentions v) (a : Rat) :
    store.Satisfies (Function.update s v a) ↔ store.Satisfies s := by
  have hne : ∀ w q, store.rule? w = some q → w ≠ v := by
    rintro w q hq rfl
    exact Bool.false_ne_true (hv ▸ knows_of_rule? hq)
  have heval : ∀ w q, store.rule? w = some q → q.eval (Function.update s v a) = q.eval s := by
    intro w q hq
    refine LinearForm.eval_update_of_not_mentions (wellFormed_of_rule? h hq) ?_ a
    rcases mem_of_rule? h hq with ⟨c, -, rfl⟩ | hq
    · exact LinearForm.not_mentions_of_isConstant (.ofConstant c) rfl
    · exact hm _ hq
  rw [satisfies_iff h, satisfies_iff h]
  refine forall_congr' fun w => forall_congr' fun q => forall_congr' fun hq => ?_
  rw [Function.update_of_ne (hne w q hq), heval w q hq]

/-! ### Eliminating a variable from the right-hand sides -/

def holder? (store : Store) (v : Var) : Option (Var × LinearForm) :=
  store.dependents.toList.find? fun row => row.2.mentions v

def release (store : Store) (y : Var) : Store :=
  { store with dependents := store.dependents.erase y }

def retire (store : Store) (eps : Rat) (v : Var) : Store :=
  match (store.forget v).holder? v with
  | none => store.forget v
  | some (y, rhs) => ((store.forget v).release y).inline eps v (rhs.invert y v)

theorem mem_of_holder? (h : store.holder? v = some (y, rhs)) :
    (y, rhs) ∈ store.dependents.toList ∧ rhs.mentions v :=
  ⟨List.mem_of_find?_eq_some h, by simpa using List.find?_some h⟩

theorem not_mentions_of_holder?_eq_none (h : store.holder? v = none) :
    ∀ row ∈ store.dependents.toList, ¬row.2.mentions v :=
  List.find?_eq_none.mp h

theorem not_mentions_of_knows (h : store.WellFormed) (hv : store.knows v = true)
    {row : Var × LinearForm} (hrow : row ∈ store.dependents.toList) : ¬row.2.mentions v := by
  intro hm
  rw [h.rhs_free row hrow v hm] at hv
  exact Bool.false_ne_true hv

theorem holder?_of_knows (h : store.WellFormed) (hv : store.knows v = true) :
    store.holder? v = none :=
  List.find?_eq_none.mpr fun _ hrow => not_mentions_of_knows h hv hrow

theorem holder?_forget_of_knows (h : store.WellFormed) (hv : store.knows v = true) :
    (store.forget v).holder? v = none :=
  List.find?_eq_none.mpr fun _ hrow =>
    not_mentions_of_knows h hv ((Table.mem_toList_erase h.dependents_sorted).mp hrow).1

theorem retire_of_holder?_eq_none (h : store.WellFormed) (hholder : store.holder? v = none) :
    store.retire eps v = store.forget v := by
  cases hv : store.knows v with
  | true => rw [Store.retire, holder?_forget_of_knows h hv]
  | false => rw [Store.retire, forget_of_not_knows hv, hholder]

theorem holder?_constant (h : store.WellFormed) : store.holder? Var.constant = none :=
  List.find?_eq_none.mpr fun row hrow =>
    LinearForm.not_mentions_constant (h.rhs_wellFormed row hrow)

theorem retire_constant (h : store.WellFormed) (eps : Rat) :
    store.retire eps Var.constant = store := by
  rw [retire_of_holder?_eq_none h (holder?_constant h), forget_of_not_knows h.not_knows_constant]

theorem release_eq_forget (h : store.WellFormed) (hy : (y, rhs) ∈ store.dependents.toList) :
    store.release y = store.forget y := by
  have hs : ¬store.solved.contains y := fun hs =>
    h.disjoint y ⟨Table.contains_of_mem h.dependents_sorted hy, hs⟩
  rw [release, forget, Table.erase_of_not_contains hs]

theorem not_knows_release (h : store.WellFormed) (hw : store.knows w = false) :
    (store.release y).knows w = false := by
  rw [knows, Bool.or_eq_false_iff, Table.contains, Table.contains] at hw ⊢
  refine ⟨hw.1, ?_⟩
  rw [release, Table.get?_erase h.dependents_sorted]
  split
  exacts [rfl, hw.2]

/-- A variable that a right-hand side mentions can be expressed through that dependency once it is
given up. -/
theorem Admits.invert (h : store.WellFormed) (hv : store.knows v = false)
    (hholder : store.holder? v = some (y, rhs)) :
    (store.release y).WellFormedBut v ∧ (store.release y).Admits v (rhs.invert y v) := by
  obtain ⟨hmem, hm⟩ := mem_of_holder? hholder
  have hky := knows_of_mem_dependents h.dependents_sorted hmem
  have hrhs := h.rhs_wellFormed _ hmem
  have hy0 := ne_constant_of_knows h hky
  have hv0 := LinearForm.ne_constant_of_mentions hrhs hm
  have hne : y ≠ v := by
    rintro rfl
    exact Bool.false_ne_true (hv ▸ hky)
  have hfree : (store.release y).knows v = false := not_knows_release h hv
  have hwf : (store.release y).WellFormed := release_eq_forget h hmem ▸ h.forget y
  refine ⟨hwf.but (contains_dependents_of_not_knows hfree), hv0, hrhs.invert hy0 hv0,
    LinearForm.valid_invert (h.rhs_valid _ hmem) y v, fun w hw => ?_⟩
  rcases LinearForm.mentions_of_mentions_invert hrhs hy0 hv0 hw with rfl | ⟨hwv, hw⟩
  · exact ⟨hne, release_eq_forget h hmem ▸ not_knows_forget h w⟩
  · exact ⟨hwv, not_knows_release h (h.rhs_free _ hmem w hw)⟩

theorem WellFormed.retire (h : store.WellFormed) (eps : Rat) (v : Var) :
    (store.retire eps v).WellFormed := by
  unfold Store.retire
  split
  · exact h.forget v
  · rename_i hholder
    obtain ⟨hbut, hadmits⟩ := Admits.invert (h.forget v) (not_knows_forget h v) hholder
    exact hbut.inline hadmits

theorem not_mentions_retire (h : store.WellFormed) (eps : Rat) (v : Var) :
    (store.retire eps v).knows v = false ∧
      ∀ row ∈ (store.retire eps v).dependents.toList, ¬row.2.mentions v := by
  unfold Store.retire
  split
  · rename_i hholder
    exact ⟨not_knows_forget h v, not_mentions_of_holder?_eq_none hholder⟩
  · rename_i y rhs hholder
    obtain ⟨hbut, hadmits⟩ := Admits.invert (h.forget v) (not_knows_forget h v) hholder
    refine ⟨?_, fun row => hbut.not_mentions_known_inline hadmits⟩
    rw [hbut.knows_inline, not_knows_release (h.forget v) (not_knows_forget h v)]

/-! ### Retiring as projection -/

theorem satisfies_update_retire (h : store.WellFormed) (eps : Rat) (v : Var) (a : Rat) :
    (store.retire eps v).Satisfies (Function.update s v a) ↔ (store.retire eps v).Satisfies s := by
  obtain ⟨hv, hm⟩ := not_mentions_retire h eps v
  exact satisfies_update_iff (h.retire eps v) hv hm a

/-- Giving up the dependency of `y` and giving up the value of `v` in terms of `y` is the same. -/
theorem satisfies_iff_release (h : store.WellFormed) (hholder : store.holder? v = some (y, rhs)) :
    store.Satisfies s ↔ s v = (rhs.invert y v).eval s ∧ (store.release y).Satisfies s := by
  obtain ⟨hmem, hm⟩ := mem_of_holder? hholder
  have hy0 := ne_constant_of_knows h (knows_of_mem_dependents h.dependents_sorted hmem)
  rw [LinearForm.eq_eval_invert_iff (h.rhs_wellFormed _ hmem) hy0 hm, release_eq_forget h hmem]
  exact satisfies_iff_forget h (rule?_of_mem_dependents h hmem)

/-- A variable with a rule is mentioned nowhere, so that its rule is all that is lost. -/
theorem satisfies_retire_of_knows (h : store.WellFormed) (hv : store.knows v = true) :
    (store.retire 0 v).Satisfies s ↔ ∃ a, store.Satisfies (Function.update s v a) := by
  obtain ⟨q, hq⟩ := Option.isSome_iff_exists.mp (knows_eq_isSome_rule? store v ▸ hv)
  have hupdate := satisfies_update_retire (s := s) h 0 v
  have hqv : ¬q.mentions v := fun hm => by
    rw [not_knows_of_rule?_mentions h hq hm] at hv
    exact Bool.false_ne_true hv
  have hretire : store.retire 0 v = store.forget v :=
    retire_of_holder?_eq_none h (holder?_of_knows h hv)
  rw [hretire] at hupdate ⊢
  constructor
  · intro hs
    refine ⟨q.eval s, (satisfies_iff_forget h hq).mpr ⟨?_, (hupdate _).mpr hs⟩⟩
    rw [Function.update_self,
      LinearForm.eval_update_of_not_mentions (wellFormed_of_rule? h hq) hqv]
  · rintro ⟨a, hs⟩
    exact (hupdate a).mp ((satisfies_iff_forget h hq).mp hs).2

/-- A variable without a rule is expressed through its holder, if there is one. -/
theorem satisfies_retire_of_not_knows (h : store.WellFormed) (hv : store.knows v = false) :
    (store.retire 0 v).Satisfies s ↔ ∃ a, store.Satisfies (Function.update s v a) := by
  have hupdate := satisfies_update_retire (s := s) h 0 v
  rw [Store.retire, forget_of_not_knows hv] at hupdate ⊢
  cases hholder : store.holder? v with
  | none =>
    rw [hholder] at hupdate
    exact ⟨fun hs => ⟨0, (hupdate 0).mpr hs⟩, fun ⟨a, hs⟩ => (hupdate a).mp hs⟩
  | some row =>
    obtain ⟨y, rhs⟩ := row
    obtain ⟨hbut, hadmits⟩ := Admits.invert h hv hholder
    have hinvert : ∀ a, (rhs.invert y v).eval (Function.update s v a) = (rhs.invert y v).eval s :=
      LinearForm.eval_update_of_not_mentions hadmits.wellFormed hadmits.not_mentions
    rw [hholder] at hupdate
    dsimp only at hupdate ⊢
    constructor
    · intro hs
      have hvalue : Function.update s v ((rhs.invert y v).eval s) v =
          (rhs.invert y v).eval (Function.update s v ((rhs.invert y v).eval s)) := by
        rw [Function.update_self, hinvert]
      refine ⟨(rhs.invert y v).eval s, (satisfies_iff_release h hholder).mpr ⟨hvalue, ?_⟩⟩
      exact (hbut.satisfies_inline hadmits hvalue).mp ((hupdate _).mpr hs)
    · rintro ⟨a, hs⟩
      obtain ⟨hvalue, hs⟩ := (satisfies_iff_release h hholder).mp hs
      exact (hupdate a).mp ((hbut.satisfies_inline hadmits hvalue).mpr hs)

theorem satisfies_retire (h : store.WellFormed) (v : Var) :
    (store.retire 0 v).Satisfies s ↔ ∃ a, store.Satisfies (Function.update s v a) := by
  cases hv : store.knows v with
  | true => exact satisfies_retire_of_knows h hv
  | false => exact satisfies_retire_of_not_knows h hv

end Store

namespace Progress

variable {progress : Progress}

/-- The progress that `eliminate` makes. -/
def withoutHolder (setting : Setting) (progress : Progress) (v : Var) : Progress :=
  match progress.store.holder? v with
  | none => progress
  | some (y, rhs) =>
    ((progress.withStore (progress.store.release y)).record
      (.eliminated v (rhs.invert y v))).inline setting v (rhs.invert y v)

/-- The progress that `retire` makes. -/
def withoutVar (setting : Setting) (progress : Progress) (v : Var) : Progress :=
  (((progress.record (.retired v)).dropSolved v).dropDependent v).withoutHolder setting v

theorem eliminate_eq_ok (h : progress.store.WellFormed) (hv : progress.store.knows v = false) :
    progress.eliminate setting v = .ok (progress.withoutHolder setting v) := by
  unfold eliminate withoutHolder
  show (match progress.store.holder? v with | none => _ | some (y, rhs) => _) = _
  cases hholder : progress.store.holder? v with
  | none => rfl
  | some row =>
    obtain ⟨y, rhs⟩ := row
    obtain ⟨hmem, hm⟩ := Store.mem_of_holder? hholder
    obtain ⟨hbut, hadmits⟩ := Store.Admits.invert h hv hholder
    have hy0 := Store.ne_constant_of_knows h (Store.knows_of_mem_dependents h.dependents_sorted hmem)
    dsimp only
    rw [LinearForm.solvedFor_eq_ok (h.rhs_wellFormed _ hmem) hy0 hm]
    exact propagate_eq_ok hbut hadmits

theorem store_dropSolved (progress : Progress) (v : Var) :
    (progress.dropSolved v).store =
      { progress.store with solved := progress.store.solved.erase v } := by
  unfold dropSolved
  split
  · rfl
  · rename_i h
    rw [Table.erase_of_not_contains h]

theorem store_dropDependent (progress : Progress) (v : Var) :
    (progress.dropDependent v).store =
      { progress.store with dependents := progress.store.dependents.erase v } := by
  unfold dropDependent
  split
  · rfl
  · rename_i h
    rw [Table.erase_of_not_contains h]

theorem events_dropSolved (progress : Progress) (v : Var) :
    (progress.dropSolved v).events =
      progress.events ++ if progress.store.solved.contains v then [.unsolved v] else [] := by
  unfold dropSolved
  split
  · rfl
  · exact (List.append_nil _).symm

theorem events_dropDependent (progress : Progress) (v : Var) :
    (progress.dropDependent v).events =
      progress.events ++ if progress.store.dependents.contains v then [.independent v] else [] := by
  unfold dropDependent
  split
  · rfl
  · exact (List.append_nil _).symm

theorem store_drop (progress : Progress) (v : Var) :
    (((progress.record (.retired v)).dropSolved v).dropDependent v).store =
      progress.store.forget v := by
  rw [store_dropDependent, store_dropSolved]
  rfl

theorem store_withoutVar (setting : Setting) (progress : Progress) (v : Var) :
    (progress.withoutVar setting v).store = progress.store.retire setting.threshold v := by
  unfold withoutVar withoutHolder Store.retire
  rw [store_drop]
  cases (progress.store.forget v).holder? v with
  | none => exact store_drop progress v
  | some row =>
    obtain ⟨y, rhs⟩ := row
    rw [store_inline, record, withStore]

theorem retire_eq_ok (h : progress.store.WellFormed) (hv : v ≠ Var.constant) :
    progress.retire setting v = .ok (progress.withoutVar setting v) := by
  rw [retire, if_neg hv]
  refine eliminate_eq_ok ?_ ?_ <;> rw [store_drop]
  · exact h.forget v
  · exact Store.not_knows_forget h v

theorem eq_of_retire (h : progress.store.WellFormed) {progress' : Progress}
    (hretire : progress.retire setting v = .ok progress') :
    v = Var.constant ∧ progress' = progress ∨
      v ≠ Var.constant ∧ progress' = progress.withoutVar setting v := by
  by_cases hv : v = Var.constant
  · rw [retire, if_pos hv] at hretire
    cases hretire
    exact .inl ⟨hv, rfl⟩
  · rw [retire_eq_ok h hv] at hretire
    cases hretire
    exact .inr ⟨hv, rfl⟩

theorem store_of_retire (h : progress.store.WellFormed) {progress' : Progress}
    (hretire : progress.retire setting v = .ok progress') :
    progress'.store = progress.store.retire setting.threshold v := by
  rcases eq_of_retire h hretire with ⟨rfl, rfl⟩ | ⟨-, rfl⟩
  · rw [Store.retire_constant h]
  · exact store_withoutVar ..

end Progress

end SolvedForm
