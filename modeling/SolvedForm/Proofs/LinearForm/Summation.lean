import Mathlib.Algebra.BigOperators.Group.List.Basic
import SolvedForm.Proofs.LinearForm.Construction

/-!
# Sums of terms

Terms are added one at a time, and a coefficient may become zero and come back on the way. In the end
each variable has the sum of what was added to it (`coeff_ofTerms`). So neither the order of the
terms matters (`ofTerms_perm`) nor in how many sums they are taken (`ofTerms_add_ofTerms`).
-/

namespace SolvedForm.LinearForm

variable {p : LinearForm} {terms rest : List (Var × Rat)}

/-- What a list of terms adds to the coefficient of `v`. -/
def share (terms : List (Var × Rat)) (v : Var) : Rat :=
  ((terms.filter fun t => t.1 = v).map Prod.snd).sum

theorem share_cons (t : Var × Rat) (terms : List (Var × Rat)) (v : Var) :
    share (t :: terms) v = (if t.1 = v then t.2 else 0) + share terms v := by
  unfold share
  by_cases h : t.1 = v
  · simp [h]
  · simp [h]

theorem share_append (terms rest : List (Var × Rat)) (v : Var) :
    share (terms ++ rest) v = share terms v + share rest v := by
  simp [share]

theorem share_perm (h : terms.Perm rest) (v : Var) : share terms v = share rest v :=
  ((h.filter _).map _).sum_eq

theorem coeff_addTerm (hp : p.WellFormed) (t : Var × Rat) (v : Var) :
    (p.addTerm t).coeff v = p.coeff v + if t.1 = v then t.2 else 0 := by
  unfold addTerm
  split
  · rename_i ht
    rw [ht]
    by_cases hv : v = Var.constant
    · subst v
      simp [coeff, setConstant]
    · simp [coeff, setConstant, hv, Ne.symm hv]
  · rename_i ht
    rw [coeff_withCoeff hp ht]
    by_cases hv : v = t.1
    · simp [hv]
    · simp [hv, Ne.symm hv]

theorem coeff_foldl_addTerm (hp : p.WellFormed) (terms : List (Var × Rat)) (v : Var) :
    (terms.foldl addTerm p).coeff v = p.coeff v + share terms v := by
  induction terms generalizing p with
  | nil => simp [share]
  | cons t terms ih => rw [List.foldl_cons, ih (hp.addTerm t), coeff_addTerm hp, share_cons, add_assoc]

theorem coeff_ofTerms (c : Rat) (terms : List (Var × Rat)) (v : Var) :
    (ofTerms c terms).coeff v = (if v = Var.constant then c else 0) + share terms v := by
  have hconstant : (ofConstant c).coeff v = if v = Var.constant then c else 0 := rfl
  rw [ofTerms, coeff_foldl_addTerm (.ofConstant c), hconstant]

theorem ofTerms_eq_of_share_eq (c : Rat) (h : ∀ v, share terms v = share rest v) :
    ofTerms c terms = ofTerms c rest := by
  refine eq_of_coeff_eq (.ofTerms ..) (.ofTerms ..) ?_ fun v => ?_
  · rw [valid_ofTerms, valid_ofTerms]
  · rw [coeff_ofTerms, coeff_ofTerms, h]

theorem ofTerms_perm (c : Rat) (h : terms.Perm rest) : ofTerms c terms = ofTerms c rest :=
  ofTerms_eq_of_share_eq c (share_perm h)

theorem ofTerms_add_ofTerms (c d : Rat) (terms rest : List (Var × Rat)) :
    ofTerms c terms + ofTerms d rest = ofTerms (c + d) (terms ++ rest) := by
  have hadd := (WellFormed.ofTerms c terms).add (.ofTerms d rest)
  refine eq_of_coeff_eq hadd (.ofTerms ..) ?_ fun v => ?_
  · show ((ofTerms c terms).valid && (ofTerms d rest).valid) = _
    rw [valid_ofTerms, valid_ofTerms, valid_ofTerms]
    rfl
  · rw [coeff_add (.ofTerms ..) (.ofTerms ..), coeff_ofTerms, coeff_ofTerms, coeff_ofTerms,
      share_append]
    split <;> ring

/-- A sum of terms, in any order and with any repetitions, has for its constant and for each variable
the sum of what belongs to it. -/
theorem ofTerms_sums (c : Rat) (terms : List (Var × Rat)) :
    (ofTerms c terms).constant = c + share terms Var.constant ∧
      (∀ v, v ≠ Var.constant → (ofTerms c terms).coeff v = share terms v) ∧
      (∀ rest, terms.Perm rest → ofTerms c terms = ofTerms c rest) ∧
      ∀ d rest, ofTerms c terms + ofTerms d rest = ofTerms (c + d) (terms ++ rest) := by
  refine ⟨coeff_ofTerms c terms Var.constant, fun v hv => ?_, fun rest => ofTerms_perm c, fun d =>
    ofTerms_add_ofTerms c d terms⟩
  rw [coeff_ofTerms, if_neg hv, zero_add]

theorem ofTerms_sums_returning :
    ofTerms 1 [(3, 2), (0, 4), (3, -2), (1, 0), (0, -3), (3, 5)] =
        ofTerms 1 [(0, 4), (0, -3), (1, 0), (3, 2), (3, -2), (3, 5)] ∧
      (ofTerms 1 [(3, 2), (0, 4), (3, -2), (1, 0), (0, -3), (3, 5)]).constant = 2 ∧
      (ofTerms 1 [(3, 2), (0, 4), (3, -2), (1, 0), (0, -3), (3, 5)]).coeff 3 = 5 := by
  obtain ⟨hconstant, hcoeff, hperm, -⟩ :=
    ofTerms_sums 1 [(3, 2), (0, 4), (3, -2), (1, 0), (0, -3), (3, 5)]
  refine ⟨hperm _ (by decide +kernel), ?_, ?_⟩
  · rw [hconstant]
    decide +kernel
  · rw [hcoeff 3 (by decide)]
    decide +kernel

end SolvedForm.LinearForm
