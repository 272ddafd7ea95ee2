import SolvedForm.Proofs.LinearForm.Evaluation

/-!
# Substitution

`replace p v q` puts `q` in the place of `v` without checking anything. `substitute_eq_ok`: that is
what substitution makes as long as `q` does not mention `v`. `eval_replace`: its value is the value
of `p` where `v` has the value of `q`. `substitute_eq_error_iff`: what else there is to substitution
are two misuses.
-/

namespace SolvedForm.LinearForm

variable {p q : LinearForm} {v w : Var} {s : Var → Rat}

def replace (p : LinearForm) (v : Var) (q : LinearForm) : LinearForm :=
  if p.coeff v = 0 then p else p.withCoeff v 0 + q.scale (p.coeff v)

theorem substitute_eq_ok (hv : v ≠ Var.constant) (h : ¬q.mentions v) :
    p.substitute v q = .ok (p.replace v q) := by
  unfold substitute replace setTerm
  rw [if_neg h, if_neg hv]
  split <;> rfl

theorem WellFormed.replace (hp : p.WellFormed) (hv : v ≠ Var.constant) (hq : q.WellFormed) :
    (p.replace v q).WellFormed := by
  unfold LinearForm.replace
  split
  · exact hp
  · exact (hp.withCoeff hv 0).add (hq.scale _)

theorem eval_replace (hp : p.WellFormed) (hv : v ≠ Var.constant) (s : Var → Rat) :
    (p.replace v q).eval s = p.eval (Function.update s v (q.eval s)) := by
  rw [eval_update hp hv]
  unfold replace
  split
  · rename_i h
    rw [h, zero_mul, add_zero]
  · rw [eval_add, eval_withCoeff hp hv, eval_scale]
    ring

theorem replace_of_not_mentions (hv : v ≠ Var.constant) (h : ¬p.mentions v) :
    p.replace v q = p :=
  if_pos (coeff_of_not_mentions hv h)

theorem eval_replace_of_eq (hp : p.WellFormed) (hv : v ≠ Var.constant) (h : s v = q.eval s) :
    (p.replace v q).eval s = p.eval s := by
  rw [eval_replace hp hv, ← h, Function.update_eq_self]

theorem valid_replace_of_coeff_ne_zero (h : p.coeff v ≠ 0) :
    (p.replace v q).valid = (p.valid && q.valid) := by
  rw [replace, if_neg h]
  show (p.valid && (q.scale (p.coeff v)).valid) = _
  rw [valid_scale]

theorem valid_replace (hp : p.valid) (hq : q.valid) : (p.replace v q).valid := by
  by_cases h : p.coeff v = 0
  · rw [replace, if_pos h]
    exact hp
  · rw [valid_replace_of_coeff_ne_zero h, hp, hq]
    rfl

theorem coeff_replace (hp : p.WellFormed) (hv : v ≠ Var.constant) (hq : q.WellFormed) (w : Var) :
    (p.replace v q).coeff w = (if w = v then 0 else p.coeff w) + p.coeff v * q.coeff w := by
  unfold replace
  split
  · rename_i h
    rw [h, zero_mul, add_zero]
    split
    · subst w
      exact h
    · rfl
  · rw [coeff_add (hp.withCoeff hv 0) (hq.scale _), coeff_withCoeff hp hv, coeff_scale hq]

theorem mentions_replace_iff (hp : p.WellFormed) (hv : v ≠ Var.constant) (hq : q.WellFormed)
    (h : ¬q.mentions w) : (p.replace v q).mentions w ↔ w ≠ v ∧ p.mentions w := by
  by_cases hw : w = Var.constant
  · subst hw
    simp [not_mentions_constant hp, not_mentions_constant (hp.replace hv hq)]
  · rw [mentions_iff_coeff_ne_zero (hp.replace hv hq) hw, mentions_iff_coeff_ne_zero hp hw,
      coeff_replace hp hv hq, coeff_of_not_mentions hw h, mul_zero, add_zero]
    split <;> simp_all

theorem mentions_of_mentions_replace (hp : p.WellFormed) (hv : v ≠ Var.constant)
    (hq : q.WellFormed) (h : (p.replace v q).mentions w) :
    w ≠ v ∧ p.mentions w ∨ q.mentions w := by
  by_cases hw : q.mentions w
  · exact .inr hw
  · exact .inl ((mentions_replace_iff hp hv hq hw).mp h)

theorem not_mentions_replace (hp : p.WellFormed) (hv : v ≠ Var.constant) (hq : q.WellFormed)
    (h : ¬q.mentions v) : ¬(p.replace v q).mentions v := fun hm =>
  ((mentions_replace_iff hp hv hq h).mp hm).1 rfl

/-! ### Substitution as a whole -/

/-- The form `r` is `p` with `q` in the place of `v`. -/
structure IsSubstituted (p : LinearForm) (v : Var) (q r : LinearForm) : Prop where
  wellFormed : r.WellFormed
  not_mentions : ¬r.mentions v
  eval : ∀ s, r.eval s = p.eval (Function.update s v (q.eval s))
  /-- A form that does not mention `v` stays as it is, flag included. -/
  eq_of_not_mentions : ¬p.mentions v → r = p
  valid_of_mentions : p.mentions v → r.valid = (p.valid && q.valid)

theorem isSubstituted_replace (hp : p.WellFormed) (hv : v ≠ Var.constant) (hq : q.WellFormed)
    (h : ¬q.mentions v) : p.IsSubstituted v q (p.replace v q) where
  wellFormed := hp.replace hv hq
  not_mentions := not_mentions_replace hp hv hq h
  eval := eval_replace hp hv
  eq_of_not_mentions := replace_of_not_mentions hv
  valid_of_mentions := fun hm => valid_replace_of_coeff_ne_zero (coeff_ne_zero_of_mentions hp hm)

/-- A substitution goes wrong if it is cyclic, or if it is to replace a constant other than zero. -/
theorem substitute_eq_error_iff (hq : q.WellFormed) {misuse : Misuse} :
    p.substitute v q = .error misuse ↔
      q.mentions v ∧ misuse = .cyclicSubstitution v ∨
        v = Var.constant ∧ p.constant ≠ 0 ∧ misuse = .constantAsVariable := by
  by_cases hv : v = Var.constant
  -- the constant has no term to look for, but its own coefficient
  · subst v
    have hm := not_mentions_constant hq
    unfold substitute coeff setTerm
    rw [if_neg hm, if_pos rfl, if_pos rfl]
    by_cases hc : p.constant = 0
    · simp [hm, hc]
    · simp [hm, hc, Except.map, eq_comm]
  by_cases hm : q.mentions v
  · rw [substitute, if_pos hm]
    simp [hv, hm, eq_comm]
  · rw [substitute_eq_ok hv hm]
    simp [hv, hm]

/-- Substitution agrees with evaluation for every variable that `q` does not mention, and goes wrong
in exactly two cases. -/
theorem substitute_spec (hp : p.WellFormed) (hq : q.WellFormed) (v : Var) :
    (v ≠ Var.constant → ¬q.mentions v →
      ∃ r, p.substitute v q = .ok r ∧ p.IsSubstituted v q r) ∧
    (p.substitute v q = .error (.cyclicSubstitution v) ↔ q.mentions v) ∧
    (p.substitute v q = .error .constantAsVariable ↔ v = Var.constant ∧ p.constant ≠ 0) ∧
    ((∃ misuse, p.substitute v q = .error misuse) ↔
      q.mentions v ∨ v = Var.constant ∧ p.constant ≠ 0) := by
  refine ⟨fun hv hm => ⟨_, substitute_eq_ok hv hm, isSubstituted_replace hp hv hq hm⟩, ?_, ?_, ?_⟩
  · simp [substitute_eq_error_iff hq]
  · simp [substitute_eq_error_iff hq]
  · constructor
    · rintro ⟨misuse, herror⟩
      rcases (substitute_eq_error_iff hq).mp herror with ⟨hm, -⟩ | ⟨hv, hc, -⟩
      · exact .inl hm
      · exact .inr ⟨hv, hc⟩
    · rintro (hm | ⟨hv, hc⟩)
      · exact ⟨_, (substitute_eq_error_iff hq).mpr (.inl ⟨hm, rfl⟩)⟩
      · exact ⟨_, (substitute_eq_error_iff hq).mpr (.inr ⟨hv, hc, rfl⟩)⟩

/-- All terms of `1 + 2x₁ + 3x₂ - x₃` cancel as `4 - 2x₁/3 + x₃/3` takes the place of `x₂`. The
constant cannot be replaced, nor can `x₁` by a form that mentions it. -/
theorem substitute_spec_cancelling :
    (∃ r, (ofTerms 1 [(1, 2), (2, 3), (3, -1)]).substitute 2 (ofTerms 4 [(1, -2 / 3), (3, 1 / 3)]) =
        .ok r ∧ r = ofConstant 13 ∧
      (ofTerms 1 [(1, 2), (2, 3), (3, -1)]).IsSubstituted 2 (ofTerms 4 [(1, -2 / 3), (3, 1 / 3)])
        r) ∧
    (ofTerms 1 [(1, 2), (2, 3), (3, -1)]).substitute 0 (ofTerms 4 [(1, -2 / 3), (3, 1 / 3)]) =
      .error .constantAsVariable ∧
    (ofTerms 1 [(1, 2), (2, 3), (3, -1)]).substitute 1 (ofTerms 4 [(1, -2 / 3), (3, 1 / 3)]) =
      .error (.cyclicSubstitution 1) := by
  have hspec := substitute_spec (.ofTerms 1 [(1, 2), (2, 3), (3, -1)])
    (.ofTerms 4 [(1, -2 / 3), (3, 1 / 3)])
  obtain ⟨r, hr, hsub⟩ := (hspec 2).1 (by decide) (by decide +kernel)
  have h13 : (ofTerms 1 [(1, 2), (2, 3), (3, -1)]).substitute 2
      (ofTerms 4 [(1, -2 / 3), (3, 1 / 3)]) = .ok (ofConstant 13) := by decide +kernel
  refine ⟨⟨r, hr, Except.ok.inj (hr.symm.trans h13), hsub⟩, ?_, ?_⟩
  · exact (hspec 0).2.2.1.mpr ⟨rfl, by decide +kernel⟩
  · exact (hspec 1).2.1.mpr (by decide +kernel)

end SolvedForm.LinearForm
