import Mathlib.Algebra.Order.BigOperators.Ring.Finset
import Mathlib.Tactic.FieldSimp
import SolvedForm.Proofs.LinearForm.Evaluation

/-!
# Flushing

Flushing acts on the constant and on each coefficient by itself (`coeff_flush`). So a form is its
own flush if all of them are (`flush_eq_self_iff`), and is flushed to zero if all of them are zero
or near zero (`value?_flush_eq_zero_iff`). What it takes off a value is bounded in the same way, by
the threshold for the constant and for each variable (`abs_eval_sub_eval_flush_le`).
-/

namespace SolvedForm

namespace Magnitude

variable {eps a : Rat}

theorem abs_eq (a : Rat) : a.abs = |a| := by
  rcases le_total 0 a with h | h
  · rw [abs_of_nonneg h, Rat.abs_of_nonneg h]
  · rw [abs_of_nonpos h, Rat.abs_of_nonpos h]

theorem flush_self_zero (eps : Rat) : flush eps 0 = 0 := by
  unfold flush
  split <;> rfl

theorem not_nearZero_of_nonpos (heps : eps ≤ 0) (a : Rat) : ¬NearZero eps a := fun h =>
  absurd (lt_of_lt_of_le h heps) (not_lt.mpr Rat.abs_nonneg)

theorem flush_of_nonpos (heps : eps ≤ 0) (a : Rat) : flush eps a = a :=
  if_neg (not_nearZero_of_nonpos heps a)

theorem flush_eq_self_or (eps a : Rat) : flush eps a = a ∨ flush eps a = 0 := by
  unfold flush
  split
  · exact .inr rfl
  · exact .inl rfl

theorem abs_sub_flush_le (heps : 0 ≤ eps) (a : Rat) : |a - flush eps a| ≤ eps := by
  unfold flush
  split
  · rename_i hnear
    rw [sub_zero, ← abs_eq]
    exact le_of_lt hnear
  · rw [sub_self, abs_zero]
    exact heps

/-- If `a` is flushed, divided by `-c` and flushed again, then its return by the factor `c` leaves
something negligible exactly if the second flush took nothing. -/
theorem residue_negligible_iff {c : Rat} (hc : c ≠ 0) :
    (a + c * flush eps ((-c)⁻¹ * flush eps a) = 0 ∨
      NearZero eps (a + c * flush eps ((-c)⁻¹ * flush eps a))) ↔
    flush eps ((-c)⁻¹ * flush eps a) = (-c)⁻¹ * flush eps a := by
  by_cases hnear : NearZero eps a
  · have hflush : flush eps a = 0 := if_pos hnear
    simp only [hflush, mul_zero, flush_self_zero, add_zero, iff_true]
    exact .inr hnear
  · have hflush : flush eps a = a := if_neg hnear
    rw [hflush]
    constructor
    · intro h
      by_contra hne
      -- then the second flush took all, and the residue is `a` itself
      rw [(flush_eq_self_or eps _).resolve_left hne, mul_zero, add_zero] at h
      rcases h with rfl | h
      · exact hne (by rw [mul_zero, flush_self_zero])
      · exact hnear h
    · intro h
      left
      rw [h]
      field_simp
      ring

end Magnitude

namespace LinearForm

variable {p q : LinearForm} {v : Var} {eps : Rat} {t : Var × Rat}

theorem mem_terms_flush :
    t ∈ (p.flush eps).terms.toList ↔ t ∈ p.terms.toList ∧ ¬Magnitude.NearZero eps t.2 := by
  rw [flush, Table.toList_filter, List.mem_filter]
  simp

theorem isConstant_flush_iff :
    (p.flush eps).isConstant ↔ ∀ t ∈ p.terms.toList, Magnitude.NearZero eps t.2 := by
  rw [isConstant_iff, List.eq_nil_iff_forall_not_mem]
  simp only [mem_terms_flush, not_and, not_not]

theorem coeff_flush (hp : p.WellFormed) (v : Var) :
    (p.flush eps).coeff v = Magnitude.flush eps (p.coeff v) := by
  by_cases hv : v = Var.constant
  · rw [coeff, coeff, if_pos hv, if_pos hv]
    rfl
  by_cases hm : p.mentions v
  · obtain ⟨c, hc⟩ := (mentions_iff_exists hp).mp hm
    rw [coeff_of_mem hp hc, Magnitude.flush]
    split
    · rename_i hnear
      refine coeff_of_not_mentions hv fun hm => ?_
      obtain ⟨d, hd⟩ := (mentions_iff_exists (hp.flush eps)).mp hm
      obtain ⟨hd, hfar⟩ := mem_terms_flush.mp hd
      cases Table.key_unique hp.sorted hc hd rfl
      exact hfar hnear
    · rename_i hfar
      exact coeff_of_mem (hp.flush eps) (mem_terms_flush.mpr ⟨hc, hfar⟩)
  · have hm' : ¬(p.flush eps).mentions v := fun h => hm (mentions_of_mentions_flush hp h)
    rw [coeff_of_not_mentions hv hm, coeff_of_not_mentions hv hm', Magnitude.flush_self_zero]

theorem forall_coeff_iff (hp : p.WellFormed) {P : Rat → Prop} (hzero : P 0) :
    (∀ v, P (p.coeff v)) ↔ P p.constant ∧ ∀ t ∈ p.terms.toList, P t.2 := by
  constructor
  · refine fun h => ⟨h Var.constant, fun t ht => ?_⟩
    rw [← coeff_of_mem hp (v := t.1) ht]
    exact h t.1
  · rintro ⟨hconstant, hterms⟩ v
    by_cases hv : v = Var.constant
    · rw [coeff, if_pos hv]
      exact hconstant
    by_cases hm : p.mentions v
    · obtain ⟨c, hc⟩ := (mentions_iff_exists hp).mp hm
      rw [coeff_of_mem hp hc]
      exact hterms _ hc
    · rw [coeff_of_not_mentions hv hm]
      exact hzero

theorem flush_eq_self_iff (hp : p.WellFormed) :
    p.flush eps = p ↔ ∀ v, Magnitude.flush eps (p.coeff v) = p.coeff v := by
  constructor
  · intro h v
    rw [← coeff_flush hp, h]
  · rw [forall_coeff_iff hp (P := fun a => Magnitude.flush eps a = a)
      (Magnitude.flush_self_zero eps)]
    rintro ⟨hconstant, hterms⟩
    have hfar : ∀ t ∈ p.terms.toList, ¬Magnitude.NearZero eps t.2 := fun t ht hnear =>
      hp.coeff_ne_zero t ht ((hterms t ht).symm.trans (if_pos hnear))
    have hfilter : (p.terms.filter fun c => !decide (Magnitude.NearZero eps c)) = p.terms := by
      rw [Table.filter, Array.filter_eq_self.mpr]
      intro t ht
      simpa using hfar t (Array.mem_toList_iff.mpr ht)
    rw [flush, hconstant, hfilter]

theorem flush_of_nonpos (heps : eps ≤ 0) (hp : p.WellFormed) : p.flush eps = p :=
  (flush_eq_self_iff hp).mpr fun _ => Magnitude.flush_of_nonpos heps _

theorem value?_flush_eq_zero_iff (hp : p.WellFormed) :
    (p.flush eps).value? = some 0 ↔ ∀ v, p.coeff v = 0 ∨ Magnitude.NearZero eps (p.coeff v) := by
  have hconstant : (p.flush eps).constant = 0 ↔
      p.constant = 0 ∨ Magnitude.NearZero eps p.constant := by
    show Magnitude.flush eps p.constant = 0 ↔ _
    unfold Magnitude.flush
    split <;> simp_all
  rw [value?_eq_some_iff, isConstant_flush_iff, hconstant, and_comm,
    forall_coeff_iff hp (P := fun a => a = 0 ∨ Magnitude.NearZero eps a) (.inl rfl)]
  refine and_congr_right fun _ => forall_congr' fun t => forall_congr' fun ht => ?_
  exact (or_iff_right (hp.coeff_ne_zero t ht)).symm

/-- Flushing moves a value by no more than the threshold for the constant, and for each variable by
no more than that times its size. -/
theorem abs_eval_sub_eval_flush_le (hp : p.WellFormed) (heps : 0 ≤ eps) {vs : Finset Var}
    (hvs : ∀ v, p.mentions v → v ∈ vs) (hconstant : Var.constant ∉ vs) (s : Var → Rat) :
    |p.eval s - (p.flush eps).eval s| ≤ eps * (1 + ∑ v ∈ vs, |s v|) := by
  have hvs' (v : Var) (hv : (p.flush eps).mentions v) : v ∈ vs :=
    hvs v (mentions_of_mentions_flush hp hv)
  have hterm (v : Var) :
      |(p.coeff v - Magnitude.flush eps (p.coeff v)) * s v| ≤ eps * |s v| := by
    rw [abs_mul]
    exact mul_le_mul_of_nonneg_right (Magnitude.abs_sub_flush_le heps _) (abs_nonneg _)
  calc |p.eval s - (p.flush eps).eval s|
      = |(p.constant - Magnitude.flush eps p.constant) +
          ∑ v ∈ vs, (p.coeff v - Magnitude.flush eps (p.coeff v)) * s v| := by
        rw [eval_eq_sum_of_subset hp hvs hconstant,
          eval_eq_sum_of_subset (hp.flush eps) hvs' hconstant]
        simp only [coeff_flush hp, sub_mul, Finset.sum_sub_distrib]
        rw [add_sub_add_comm]
        rfl
    _ ≤ |p.constant - Magnitude.flush eps p.constant| +
          ∑ v ∈ vs, |(p.coeff v - Magnitude.flush eps (p.coeff v)) * s v| :=
        (abs_add_le _ _).trans (add_le_add_right (Finset.abs_sum_le_sum_abs _ _) _)
    _ ≤ eps + ∑ v ∈ vs, eps * |s v| :=
        add_le_add (Magnitude.abs_sub_flush_le heps _) (Finset.sum_le_sum fun v _ => hterm v)
    _ = eps * (1 + ∑ v ∈ vs, |s v|) := by rw [mul_add, mul_one, Finset.mul_sum]

end LinearForm

end SolvedForm
