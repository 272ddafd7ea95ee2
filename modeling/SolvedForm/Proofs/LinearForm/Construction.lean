import SolvedForm.Proofs.LinearForm.Substitution

/-!
# The forms that can be built

`Built p`: operations on forms make `p`. Every operation keeps the canonical shape, also one that
fails and leaves its form behind (`Built.wellFormed`), so that bisection finds in a built form what a
scan of its terms finds (`Built.found_by_scan`). Conversely a canonical form is determined by its
coefficients (`eq_of_coeff_eq`), so it is the sum of its terms and can be built (`built_iff`), and
forms with the same values are the same (`Built.eq_iff_eval_eq`).
-/

namespace SolvedForm.LinearForm

variable {p q r : LinearForm} {v : Var} {c k : Rat}

/-- The forms that can be made without breaking a promise. -/
inductive Built : LinearForm → Prop
  | ofTerms (c : Rat) (terms : List (Var × Rat)) : Built (ofTerms c terms)
  | ofConstant (c : Rat) : Built (ofConstant c)
  | ofVar {v : Var} {p : LinearForm} (h : ofVar v = .ok p) : Built p
  | setTerm {p q : LinearForm} {v : Var} {c : Rat} (hp : Built p) (h : p.setTerm v c = .ok q) :
    Built q
  | setConstant {p : LinearForm} (c : Rat) (hp : Built p) : Built (p.setConstant c)
  | add {p q : LinearForm} (hp : Built p) (hq : Built q) : Built (p + q)
  | sub {p q : LinearForm} (hp : Built p) (hq : Built q) : Built (p - q)
  | neg {p : LinearForm} (hp : Built p) : Built (-p)
  | scale {p : LinearForm} (k : Rat) (hp : Built p) : Built (p.scale k)
  | divide {p q : LinearForm} {k : Rat} (hp : Built p) (h : p.divide k = .ok q) : Built q
  | divideInPlace {p : LinearForm} (k : Rat) (hp : Built p) : Built (p.divideInPlace k).1
  | substitute {p q r : LinearForm} {v : Var} (hp : Built p) (hq : Built q)
    (h : p.substitute v q = .ok r) : Built r
  | flush {p : LinearForm} (eps : Rat) (hp : Built p) : Built (p.flush eps)

theorem WellFormed.setTerm (hp : p.WellFormed) (h : p.setTerm v c = .ok q) : q.WellFormed := by
  unfold LinearForm.setTerm at h
  split at h
  · cases h
  · rename_i hv
    cases h
    exact hp.withCoeff hv c

theorem WellFormed.divide (hp : p.WellFormed) (h : p.divide k = .ok q) : q.WellFormed := by
  unfold LinearForm.divide at h
  split at h
  · cases h
  · cases h
    exact hp.scale _

theorem WellFormed.divideInPlace (hp : p.WellFormed) (k : Rat) :
    (p.divideInPlace k).1.WellFormed := by
  unfold LinearForm.divideInPlace
  split
  · rename_i q hq
    exact hp.divide hq
  · exact hp.invalidate

theorem WellFormed.substitute (hp : p.WellFormed) (hq : q.WellFormed)
    (h : p.substitute v q = .ok r) : r.WellFormed := by
  unfold LinearForm.substitute at h
  split at h
  · cases h
  split at h
  · cases h
    exact hp
  cases hrest : p.setTerm v 0 with
  | error misuse =>
    rw [hrest] at h
    cases h
  | ok rest =>
    rw [hrest] at h
    cases h
    exact (hp.setTerm hrest).add (hq.scale _)

theorem Built.wellFormed (hp : p.Built) : p.WellFormed := by
  induction hp with
  | ofTerms c terms => exact .ofTerms c terms
  | ofConstant c => exact .ofConstant c
  | ofVar h => exact (WellFormed.ofConstant 0).setTerm h
  | setTerm _ h ih => exact ih.setTerm h
  | setConstant c _ ih => exact ih.setConstant c
  | add _ _ ihp ihq => exact ihp.add ihq
  | sub _ _ ihp ihq => exact ihp.sub ihq
  | neg _ ih => exact ih.neg
  | scale k _ ih => exact ih.scale k
  | divide _ h ih => exact ih.divide h
  | divideInPlace k _ ih => exact ih.divideInPlace k
  | substitute _ _ h ihp ihq => exact ihp.substitute ihq h
  | flush eps _ ih => exact ih.flush eps

theorem coeff_eq_lookup (hp : p.WellFormed) (v : Var) : p.coeff v = (p.toList.lookup v).getD 0 := by
  unfold coeff toList
  rw [List.lookup_cons]
  split
  · subst v
    rw [beq_self_eq_true, Option.getD_some]
  · rename_i hv
    rw [beq_false_of_ne hv, Table.get?_eq_lookup hp.sorted]

theorem mentions_eq_contains (hp : p.WellFormed) (v : Var) :
    p.mentions v = p.support.contains v := by
  rw [Bool.eq_iff_iff, List.contains_iff_mem, mem_support hp]

/-- Whatever operations made a form, its terms ascend, none is zero and none is the constant's. So
bisection answers for every variable what a scan of all terms answers. -/
theorem Built.found_by_scan (hp : p.Built) :
    p.WellFormed ∧ (∀ v, p.coeff v = (p.toList.lookup v).getD 0) ∧
      ∀ v, p.mentions v = p.support.contains v :=
  ⟨hp.wellFormed, coeff_eq_lookup hp.wellFormed, mentions_eq_contains hp.wellFormed⟩

/-- The terms of `x₃` cancel in the sum, and that of `x₁` as `x₇` is replaced in a form that a failed
division has left behind. -/
theorem found_by_scan_replaced :
    ∃ p, ((ofTerms 1 [(3, 2), (0, 4), (7, 1 / 2), (3, -2), (1, 1)]).divideInPlace 0).1.substitute 7
        (ofTerms (-2) [(2, 3), (1, -2)]) = .ok p ∧ p.toList = [(0, 4), (2, 3 / 2)] ∧
      p.WellFormed ∧ (∀ v, p.coeff v = (p.toList.lookup v).getD 0) ∧
      ∀ v, p.mentions v = p.support.contains v := by
  have hreplace := substitute_eq_ok (p := ((ofTerms 1 [(3, 2), (0, 4), (7, 1 / 2), (3, -2),
    (1, 1)]).divideInPlace 0).1) (v := 7) (q := ofTerms (-2) [(2, 3), (1, -2)]) (by decide)
    (by decide +kernel)
  exact ⟨_, hreplace, by decide +kernel,
    Built.found_by_scan (.substitute (.divideInPlace 0 (.ofTerms ..)) (.ofTerms ..) hreplace)⟩

theorem mem_terms_iff (hp : p.WellFormed) :
    (v, c) ∈ p.terms.toList ↔ v ≠ Var.constant ∧ c ≠ 0 ∧ p.coeff v = c := by
  constructor
  · exact fun h => ⟨hp.key_ne_constant _ h, hp.coeff_ne_zero _ h, coeff_of_mem hp h⟩
  · rintro ⟨hv, hc, rfl⟩
    obtain ⟨d, hd⟩ := (mentions_iff_exists hp).mp ((mentions_iff_coeff_ne_zero hp hv).mpr hc)
    rwa [coeff_of_mem hp hd]

/-- A canonical form is determined by its coefficients and its flag. -/
theorem eq_of_coeff_eq (hp : p.WellFormed) (hq : q.WellFormed) (hvalid : p.valid = q.valid)
    (h : ∀ v, p.coeff v = q.coeff v) : p = q := by
  have hconstant : p.constant = q.constant := h Var.constant
  have hterms : p.terms = q.terms := Table.eq_of_mem_iff hp.sorted hq.sorted fun ⟨v, c⟩ => by
    rw [mem_terms_iff hp, mem_terms_iff hq, h v]
  cases p
  cases q
  cases hconstant
  cases hterms
  cases hvalid
  rfl

theorem eq_ofTerms (hp : p.WellFormed) (hvalid : p.valid) :
    p = ofTerms p.constant p.terms.toList := by
  have heval (s : Var → Rat) : p.eval s = (ofTerms p.constant p.terms.toList).eval s := by
    rw [eval_eq, eval_ofTerms]
    congr 1
    refine termSum_congr fun t ht => ?_
    rw [if_neg (hp.key_ne_constant t ht)]
  exact eq_of_coeff_eq hp (.ofTerms ..) (hvalid.trans (valid_ofTerms ..).symm)
    (coeff_eq_of_eval_eq hp (.ofTerms ..) heval)

/-- Canonical forms are those that can be built: an invalid one is left behind by a division. -/
theorem built_iff : p.Built ↔ p.WellFormed := by
  refine ⟨Built.wellFormed, fun hp => ?_⟩
  cases hvalid : p.valid with
  | true =>
    rw [eq_ofTerms hp hvalid]
    exact .ofTerms ..
  | false =>
    have hwf : ({ p with valid := true } : LinearForm).WellFormed :=
      ⟨hp.sorted, hp.key_ne_constant, hp.coeff_ne_zero⟩
    have hleft : p = (({ p with valid := true } : LinearForm).divideInPlace 0).1 := by
      cases p
      cases hvalid
      rfl
    rw [hleft, eq_ofTerms hwf rfl]
    exact .divideInPlace 0 (.ofTerms ..)

theorem eq_of_eval_eq (hp : p.WellFormed) (hq : q.WellFormed) (hvalid : p.valid = q.valid)
    (h : ∀ s, p.eval s = q.eval s) : p = q :=
  eq_of_coeff_eq hp hq hvalid (coeff_eq_of_eval_eq hp hq h)

/-- Forms that operations have made, in whatever ways, are the same if no assignment tells them
apart. -/
theorem Built.eq_iff_eval_eq (hp : p.Built) (hq : q.Built) (hvalid : p.valid = q.valid) :
    p = q ↔ ∀ s, p.eval s = q.eval s :=
  ⟨fun heq _ => by rw [heq], eq_of_eval_eq hp.wellFormed hq.wellFormed hvalid⟩

theorem eq_iff_eval_eq_sub :
    (∀ s, (ofTerms 5 [(2, -1), (1, 2)]).eval s = (ofTerms 5 [(1, 2)] - ofTerms 0 [(2, 1)]).eval s) ∧
      ∃ s, (ofTerms 5 [(2, -1), (1, 2)]).eval s ≠
        (ofTerms 5 [(1, 2)] - ofTerms 0 [(3, 1)]).eval s := by
  have hiff (v : Var) (hvalid : (ofTerms 5 [(2, -1), (1, 2)]).valid =
      (ofTerms 5 [(1, 2)] - ofTerms 0 [(v, 1)]).valid) :=
    Built.eq_iff_eval_eq (.ofTerms ..) (.sub (.ofTerms ..) (.ofTerms ..)) hvalid
  refine ⟨(hiff 2 (by decide +kernel)).mp (by decide +kernel), not_forall.mp fun heval => ?_⟩
  exact absurd ((hiff 3 (by decide +kernel)).mpr heval) (by decide +kernel)

end SolvedForm.LinearForm
