import Mathlib.Algebra.BigOperators.Group.Finset.Basic
import Mathlib.Tactic.LinearCombination
import SolvedForm.Proofs.LinearForm.Canonical

/-!
# Values of linear forms

`eval` is the constant plus a sum over the terms, and every operation acts on it as it should
(`eval_add`, `eval_scale`, `eval_withCoeff`). The coefficient of `v` is the slope of the value in
`v` (`eval_update`), so a law of evaluation is a law of coefficients too (`coeff_eq_eval`).
-/

namespace SolvedForm.LinearForm

variable {p q : LinearForm} {v w : Var} {c k eps : Rat} {s s' : Var → Rat}

/-- What terms contribute to the value of a form. -/
def termSum (terms : List (Var × Rat)) (s : Var → Rat) : Rat :=
  (terms.map fun t => t.2 * s t.1).sum

theorem termSum_nil : termSum [] s = 0 := rfl

theorem termSum_cons (t : Var × Rat) (terms : List (Var × Rat)) :
    termSum (t :: terms) s = t.2 * s t.1 + termSum terms s := by
  simp [termSum]

theorem termSum_append (l r : List (Var × Rat)) : termSum (l ++ r) s = termSum l s + termSum r s := by
  simp [termSum]

theorem termSum_congr {terms : List (Var × Rat)} (h : ∀ t ∈ terms, s t.1 = s' t.1) :
    termSum terms s = termSum terms s' := by
  unfold termSum
  rw [List.map_congr_left fun t ht => by rw [h t ht]]

theorem termSum_perm {l r : List (Var × Rat)} (h : l.Perm r) : termSum l s = termSum r s :=
  (h.map _).sum_eq

theorem termSum_map_mul (terms : List (Var × Rat)) (k : Rat) :
    termSum (terms.map fun t => (t.1, t.2 * k)) s = termSum terms s * k := by
  induction terms with
  | nil => simp [termSum]
  | cons t terms ih => rw [List.map_cons, termSum_cons, termSum_cons, ih]; ring

theorem eval_eq (p : LinearForm) (s : Var → Rat) :
    p.eval s = p.constant + termSum p.terms.toList s := by
  have (a : Rat) (terms : List (Var × Rat)) :
      terms.foldl (fun sum t => sum + t.2 * s t.1) a = a + termSum terms s := by
    induction terms generalizing a with
    | nil => rw [List.foldl_nil, termSum_nil, add_zero]
    | cons t terms ih => rw [List.foldl_cons, ih, termSum_cons, add_assoc]
  exact this ..

theorem eval_eq_sum (hp : p.WellFormed) (s : Var → Rat) :
    p.eval s = p.constant + ∑ v ∈ p.support.toFinset, p.coeff v * s v := by
  have hterms : p.support.map (fun v => p.coeff v * s v) =
      p.terms.toList.map fun t => t.2 * s t.1 := by
    unfold support Table.keys
    rw [List.map_map]
    refine List.map_congr_left fun t ht => ?_
    show p.coeff t.1 * s t.1 = _
    rw [coeff_of_mem hp ht]
  rw [eval_eq, List.sum_toFinset _ (nodup_support hp), hterms, termSum]

theorem eval_eq_sum_of_subset (hp : p.WellFormed) {vs : Finset Var}
    (hvs : ∀ v, p.mentions v → v ∈ vs) (hconstant : Var.constant ∉ vs) (s : Var → Rat) :
    p.eval s = p.constant + ∑ v ∈ vs, p.coeff v * s v := by
  have hsubset : p.support.toFinset ⊆ vs := by
    intro v hv
    exact hvs v ((mem_support hp).mp (List.mem_toFinset.mp hv))
  rw [eval_eq_sum hp, Finset.sum_subset hsubset]
  intro v hv hn
  rw [List.mem_toFinset, mem_support hp] at hn
  have hne : v ≠ Var.constant := by
    rintro rfl
    exact hconstant hv
  rw [coeff_of_not_mentions hne hn, zero_mul]

theorem termSum_mergeTerms {sign : Rat → Rat} (σ : Rat) (hσ : ∀ b, sign b = σ * b)
    (l r : List (Var × Rat)) :
    termSum (mergeTerms sign l r) s = termSum l s + σ * termSum r s := by
  fun_induction mergeTerms sign l r with
  | case1 r =>
    simp only [hσ, mul_comm σ]
    rw [termSum_map_mul, termSum_nil, zero_add]
  | case2 l => rw [termSum_nil, mul_zero, add_zero]
  | case3 v a l w b r hlt ih => rw [termSum_cons, termSum_cons, ih]; ring
  | case4 v a l w b r hlt hgt ih => rw [termSum_cons, ih, termSum_cons, termSum_cons, hσ]; ring
  | case5 v a l w b r hlt hgt hz ih =>
    obtain rfl : v = w := Nat.le_antisymm (Nat.not_lt.mp hgt) (Nat.not_lt.mp hlt)
    rw [hσ] at hz
    rw [ih, termSum_cons, termSum_cons]
    linear_combination -(s v) * hz
  | case6 v a l w b r hlt hgt hz ih =>
    obtain rfl : v = w := Nat.le_antisymm (Nat.not_lt.mp hgt) (Nat.not_lt.mp hlt)
    rw [termSum_cons, ih, termSum_cons, termSum_cons, hσ]
    ring

theorem eval_combine {sign : Rat → Rat} (σ : Rat) (hσ : ∀ b, sign b = σ * b) (p q : LinearForm)
    (s : Var → Rat) : (combine sign p q).eval s = p.eval s + σ * q.eval s := by
  simp only [eval_eq, combine, Table.toList_ofRows, termSum_mergeTerms σ hσ, hσ]
  ring

theorem eval_add (p q : LinearForm) (s : Var → Rat) : (p + q).eval s = p.eval s + q.eval s :=
  (eval_combine 1 (fun b => (one_mul b).symm) p q s).trans (by rw [one_mul])

theorem eval_sub (p q : LinearForm) (s : Var → Rat) : (p - q).eval s = p.eval s - q.eval s :=
  (eval_combine (-1) (fun b => (neg_one_mul b).symm) p q s).trans (by ring)

theorem eval_scale (k : Rat) (p : LinearForm) (s : Var → Rat) :
    (p.scale k).eval s = k * p.eval s := by
  unfold scale
  split
  · subst k
    rw [zero_mul]
    rfl
  · rw [eval_eq, eval_eq p, Table.toList_map, termSum_map_mul]
    ring

theorem eval_ofConstant (c : Rat) (s : Var → Rat) : (ofConstant c).eval s = c := rfl

theorem eval_of_isConstant (h : p.isConstant) (s : Var → Rat) : p.eval s = p.constant := by
  rw [eval_eq, isConstant_iff.mp h, termSum_nil, add_zero]

def others (p : LinearForm) (v : Var) : List (Var × Rat) :=
  p.terms.toList.filter fun t => t.1 ≠ v

theorem ne_of_mem_others {t : Var × Rat} (h : t ∈ p.others v) : t.1 ≠ v := by
  simpa using (List.mem_filter.mp h).2

theorem perm_others (hp : p.WellFormed) (h : (v, c) ∈ p.terms.toList) :
    p.terms.toList.Perm ((v, c) :: p.others v) := by
  have hnodup : p.terms.toList.Nodup :=
    hp.sorted.imp fun hlt heq => Nat.ne_of_lt hlt (congrArg Prod.fst heq)
  refine (List.perm_cons_erase h).trans ?_
  rw [hnodup.erase_eq_filter, others, List.filter_congr]
  intro t ht
  have : t = (v, c) ↔ t.1 = v := ⟨congrArg Prod.fst, Table.key_unique hp.sorted ht h⟩
  simp only [this, bne, beq_eq_decide, ne_eq, decide_not]

theorem eval_split (hp : p.WellFormed) (hv : v ≠ Var.constant) (s : Var → Rat) :
    p.eval s = p.constant + p.coeff v * s v + termSum (p.others v) s := by
  rw [eval_eq]
  by_cases h : p.mentions v
  · obtain ⟨c, hc⟩ := (mentions_iff_exists hp).mp h
    rw [termSum_perm (perm_others hp hc), termSum_cons, coeff_of_mem hp hc, add_assoc]
  · have hothers : p.others v = p.terms.toList := by
      refine List.filter_eq_self.mpr fun t ht => decide_eq_true ?_
      rintro rfl
      exact h ((mentions_iff_exists hp).mpr ⟨t.2, ht⟩)
    rw [coeff_of_not_mentions hv h, hothers, zero_mul, add_zero]

theorem eval_withCoeff (hp : p.WellFormed) (hv : v ≠ Var.constant) (c : Rat) (s : Var → Rat) :
    (p.withCoeff v c).eval s = p.eval s + (c - p.coeff v) * s v := by
  have hterms : termSum (p.withCoeff v c).terms.toList s = c * s v + termSum (p.others v) s := by
    unfold withCoeff
    split
    · subst c
      rw [Table.toList_erase hp.sorted, zero_mul, zero_add]
      rfl
    · rw [Table.toList_insert hp.sorted, termSum_append, termSum_cons, others,
        Table.filter_ne_eq hp.sorted, termSum_append]
      ring
  rw [eval_eq, hterms, eval_split hp hv]
  show p.constant + _ = _
  ring

theorem eval_congr (hp : p.WellFormed) (h : ∀ v, p.mentions v → s v = s' v) :
    p.eval s = p.eval s' := by
  rw [eval_eq, eval_eq, termSum_congr]
  exact fun t ht => h t.1 ((mentions_iff_exists hp).mpr ⟨t.2, ht⟩)

theorem eval_update (hp : p.WellFormed) (hv : v ≠ Var.constant) (a : Rat) :
    p.eval (Function.update s v a) = p.eval s + p.coeff v * (a - s v) := by
  have hothers : termSum (p.others v) (Function.update s v a) = termSum (p.others v) s :=
    termSum_congr fun t ht => Function.update_of_ne (ne_of_mem_others ht) ..
  rw [eval_split hp hv, eval_split hp hv, Function.update_self, hothers]
  ring

theorem eval_update_of_not_mentions (hp : p.WellFormed) (h : ¬p.mentions v) (a : Rat) :
    p.eval (Function.update s v a) = p.eval s :=
  eval_congr hp fun w hw => Function.update_of_ne (by rintro rfl; exact h hw) ..

theorem eval_zero (p : LinearForm) : p.eval (fun _ => 0) = p.constant := by
  simp [eval_eq, termSum]

theorem eval_addTerm (hp : p.WellFormed) (t : Var × Rat) (s : Var → Rat) :
    (p.addTerm t).eval s = p.eval s + t.2 * if t.1 = Var.constant then 1 else s t.1 := by
  unfold addTerm
  split
  · rw [eval_eq, eval_eq p, setConstant]
    ring
  · rename_i ht
    rw [eval_withCoeff hp ht]
    ring

/-- The value of a sum of terms, where the variable of the constant counts as one. -/
theorem eval_ofTerms (c : Rat) (terms : List (Var × Rat)) (s : Var → Rat) :
    (ofTerms c terms).eval s =
      c + termSum terms fun v => if v = Var.constant then 1 else s v := by
  have hfold (p : LinearForm) (hp : p.WellFormed) : (terms.foldl addTerm p).eval s =
      p.eval s + termSum terms fun v => if v = Var.constant then 1 else s v := by
    induction terms generalizing p with
    | nil => rw [List.foldl_nil, termSum_nil, add_zero]
    | cons t terms ih =>
      rw [List.foldl_cons, ih _ (hp.addTerm t), eval_addTerm hp, termSum_cons, add_assoc]
  exact hfold _ (.ofConstant c)

/-! ### Coefficients -/

theorem coeff_eq_eval (hp : p.WellFormed) (v : Var) :
    p.coeff v = if v = Var.constant then p.eval fun _ => 0
      else p.eval (Function.update (fun _ => 0) v 1) - p.eval fun _ => 0 := by
  split
  · rename_i hv
    rw [eval_zero, coeff, if_pos hv]
  · rename_i hv
    rw [eval_update hp hv]
    ring

theorem coeff_eq_of_eval_eq (hp : p.WellFormed) (hq : q.WellFormed) (h : ∀ s, p.eval s = q.eval s)
    (v : Var) : p.coeff v = q.coeff v := by
  simp only [coeff_eq_eval hp, coeff_eq_eval hq, h]

theorem coeff_add (hp : p.WellFormed) (hq : q.WellFormed) (v : Var) :
    (p + q).coeff v = p.coeff v + q.coeff v := by
  simp only [coeff_eq_eval (hp.add hq), coeff_eq_eval hp, coeff_eq_eval hq, eval_add]
  split <;> ring

theorem coeff_sub (hp : p.WellFormed) (hq : q.WellFormed) (v : Var) :
    (p - q).coeff v = p.coeff v - q.coeff v := by
  simp only [coeff_eq_eval (hp.sub hq), coeff_eq_eval hp, coeff_eq_eval hq, eval_sub]
  split <;> ring

theorem coeff_scale (hp : p.WellFormed) (k : Rat) (v : Var) :
    (p.scale k).coeff v = k * p.coeff v := by
  simp only [coeff_eq_eval (hp.scale k), coeff_eq_eval hp, eval_scale]
  split <;> ring

theorem coeff_withCoeff (hp : p.WellFormed) (hv : v ≠ Var.constant) (c : Rat) (w : Var) :
    (p.withCoeff v c).coeff w = if w = v then c else p.coeff w := by
  by_cases hw : w = Var.constant
  · subst w
    rw [if_neg hv.symm]
    rfl
  rw [coeff_eq_eval (hp.withCoeff hv c), if_neg hw, eval_withCoeff hp hv, eval_withCoeff hp hv,
    eval_update hp hw]
  split
  · subst w
    rw [Function.update_self]
    ring
  · rename_i hwv
    rw [Function.update_of_ne (Ne.symm hwv)]
    ring

theorem mentions_of_mentions_sub (hp : p.WellFormed) (hq : q.WellFormed)
    (h : (p - q).mentions v) : p.mentions v ∨ q.mentions v := by
  have hv := ne_constant_of_mentions (hp.sub hq) h
  by_contra hn
  obtain ⟨hnp, hnq⟩ := not_or.mp hn
  refine coeff_ne_zero_of_mentions (hp.sub hq) h ?_
  rw [coeff_sub hp hq, coeff_of_not_mentions hv hnp, coeff_of_not_mentions hv hnq, sub_zero]

theorem mentions_of_mentions_scale (hp : p.WellFormed) (h : (p.scale k).mentions v) :
    p.mentions v := by
  have hv := ne_constant_of_mentions (hp.scale k) h
  by_contra hn
  refine coeff_ne_zero_of_mentions (hp.scale k) h ?_
  rw [coeff_scale hp, coeff_of_not_mentions hv hn, mul_zero]

theorem mentions_withCoeff_zero (hp : p.WellFormed) (hv : v ≠ Var.constant) :
    (p.withCoeff v 0).mentions w ↔ w ≠ v ∧ p.mentions w := by
  by_cases hw : w = Var.constant
  · subst hw
    simp [not_mentions_constant hp, not_mentions_constant (hp.withCoeff hv 0)]
  · rw [mentions_iff_coeff_ne_zero (hp.withCoeff hv 0) hw, mentions_iff_coeff_ne_zero hp hw,
      coeff_withCoeff hp hv]
    split <;> simp_all

end SolvedForm.LinearForm
