import Mathlib.Tactic.FieldSimp
import SolvedForm.Proofs.Solver.NewRule
import SolvedForm.Proofs.Store.Reduction

/-!
# How an assertion ends

`Asserted setting progress p attempt` lists the five ways in which asserting `0 = p` can end; on a
store in solved form it ends in one of them (`exists_assert`). The solved form is kept
(`Asserted.wellFormed`). At the threshold zero an accepted equation cuts the solutions down to those
where it holds (`Asserted.satisfies`), and whether it is accepted is decided by the solutions
(`Asserted.decides`).
-/

namespace SolvedForm

variable {setting : Setting} {store : Store} {p q : LinearForm} {v w : Var} {c eps : Rat}
  {s : Var → Rat}

namespace LinearForm

theorem mem_of_foldl_greaterTerm {terms : List (Var × Rat)} {best : Option (Var × Rat)}
    {t : Var × Rat} (h : terms.foldl greaterTerm best = some t) : t ∈ terms ∨ best = some t := by
  induction terms generalizing best with
  | nil => exact .inr h
  | cons u terms ih =>
    rcases ih h with ht | ht
    · exact .inl (List.mem_cons_of_mem _ ht)
    · unfold greaterTerm at ht
      split at ht
      · split at ht
        · cases ht
          exact .inl (List.mem_cons_self ..)
        · exact .inr ht
      · cases ht
        exact .inl (List.mem_cons_self ..)

theorem mem_of_greatestTerm? {excluded : Var → Bool} {t : Var × Rat}
    (h : p.greatestTerm? excluded = some t) : t ∈ p.terms.toList := by
  rcases mem_of_foldl_greaterTerm h with ht | ht
  · exact (List.mem_filter.mp ht).1
  · cases ht

theorem isSome_foldl_greaterTerm (terms : List (Var × Rat)) (t : Var × Rat) :
    (terms.foldl greaterTerm (some t)).isSome := by
  induction terms generalizing t with
  | nil => rfl
  | cons u terms ih =>
    rw [List.foldl_cons]
    unfold greaterTerm
    dsimp only
    split
    · exact ih u
    · exact ih t

theorem isSome_greatestTerm? (h : ¬p.isConstant) : (p.greatestTerm? fun _ => false).isSome := by
  rw [isConstant_iff] at h
  have hall : (p.terms.toList.filter fun t => !(fun _ => false) t.1) = p.terms.toList :=
    List.filter_eq_self.mpr fun _ _ => rfl
  rw [greatestTerm?, hall]
  cases hterms : p.terms.toList with
  | nil => exact absurd hterms h
  | cons t terms => exact isSome_foldl_greaterTerm terms t

end LinearForm

theorem Setting.mem_of_pivot? (h : setting.pivot? store p = some (v, c)) :
    (v, c) ∈ p.terms.toList := by
  rcases Option.or_eq_some_iff.mp h with h | ⟨-, h⟩ <;> exact LinearForm.mem_of_greatestTerm? h

theorem Setting.not_isConstant_of_pivot? (h : setting.pivot? store p = some (v, c)) :
    ¬p.isConstant := fun hconst =>
  List.not_mem_nil (LinearForm.isConstant_iff.mp hconst ▸ mem_of_pivot? h)

theorem Setting.exists_pivot? (setting : Setting) (store : Store) (h : ¬p.isConstant) :
    ∃ t, setting.pivot? store p = some t := by
  rw [← Option.isSome_iff_exists, pivot?, Option.isSome_or, LinearForm.isSome_greatestTerm? h,
    Bool.or_true]

namespace LinearForm

/-- The form that equals `v` where `p` is zero. -/
def isolate (p : LinearForm) (v : Var) : LinearForm :=
  (p.withCoeff v 0).scale (-p.coeff v)⁻¹

theorem divide_withCoeff_zero (hc : p.coeff v ≠ 0) :
    (p.withCoeff v 0).divide (-p.coeff v) = .ok (p.isolate v) := by
  rw [divide, if_neg (neg_ne_zero.mpr hc), isolate]

theorem WellFormed.isolate (hp : p.WellFormed) (hv : v ≠ Var.constant) :
    (p.isolate v).WellFormed :=
  (hp.withCoeff hv 0).scale _

theorem valid_isolate (hp : p.valid) (v : Var) : (p.isolate v).valid :=
  (valid_scale _ (p.withCoeff v 0)).trans hp

theorem mentions_of_mentions_isolate (hp : p.WellFormed) (hv : v ≠ Var.constant)
    (h : (p.isolate v).mentions w) : w ≠ v ∧ p.mentions w :=
  (mentions_withCoeff_zero hp hv).mp (mentions_of_mentions_scale (hp.withCoeff hv 0) h)

theorem coeff_isolate (hp : p.WellFormed) (hv : v ≠ Var.constant) (w : Var) :
    (p.isolate v).coeff w = (-p.coeff v)⁻¹ * if w = v then 0 else p.coeff w := by
  rw [isolate, coeff_scale (hp.withCoeff hv 0), coeff_withCoeff hp hv]

/-- The form is a multiple of the gap between `v` and what equals `v` at its zeros. -/
theorem eval_eq_mul_isolate (hp : p.WellFormed) (h : p.mentions v) (s : Var → Rat) :
    p.eval s = p.coeff v * (s v - (p.isolate v).eval s) := by
  have hc := coeff_ne_zero_of_mentions hp h
  rw [isolate, eval_scale, eval_withCoeff hp (ne_constant_of_mentions hp h)]
  field_simp
  ring

theorem eq_eval_isolate_iff (hp : p.WellFormed) (h : p.mentions v) :
    s v = (p.isolate v).eval s ↔ p.eval s = 0 := by
  rw [eval_eq_mul_isolate hp h, mul_eq_zero_iff_left (coeff_ne_zero_of_mentions hp h), sub_eq_zero]

end LinearForm

theorem Store.Admits.isolate (hp : p.WellFormed) (hvalid : p.valid)
    (hfree : ∀ w, p.mentions w → store.knows w = false) (h : p.mentions v) :
    store.Admits v ((p.isolate v).flush eps) := by
  have hv := LinearForm.ne_constant_of_mentions hp h
  refine ⟨hv, (hp.isolate hv).flush eps, LinearForm.valid_isolate hvalid v, fun w hw => ?_⟩
  obtain ⟨hne, hw⟩ := LinearForm.mentions_of_mentions_isolate hp hv
    (LinearForm.mentions_of_mentions_flush (hp.isolate hv) hw)
  exact ⟨hne, hfree w hw⟩

namespace Store

theorem Expands.of_expand (h : store.WellFormed) (hp : p.WellFormed)
    (hq : store.expand p = .ok q) : store.Expands p q := by
  obtain ⟨r, hr, hexp⟩ := exists_expand h hp
  cases hq.symm.trans hr
  exact hexp

theorem Expands.eval_of_satisfies (h : store.WellFormed) (hq : store.Expands p q)
    (hs : store.Satisfies s) : q.eval s = p.eval s := by
  rw [hq.eval, (satisfies_iff_complete_eq h).mp hs]

theorem Expands.not_knows (hq : store.Expands p q) (hw : (q.flush eps).mentions w) :
    store.knows w = false :=
  hq.free w (LinearForm.mentions_of_mentions_flush hq.wellFormed hw)

theorem admits_of_pivot? (h : store.WellFormed) (hp : p.WellFormed) (hvalid : p.valid)
    (hq : store.expand p = .ok q) (hpivot : setting.pivot? store (q.flush eps) = some (v, c)) :
    (q.flush eps).mentions v ∧ store.knows v = false ∧
      store.Admits v (((q.flush eps).isolate v).flush eps) := by
  have hexp := Expands.of_expand h hp hq
  have hwf := hexp.wellFormed.flush eps
  have hm := (LinearForm.mentions_iff_exists hwf).mpr ⟨c, Setting.mem_of_pivot? hpivot⟩
  exact ⟨hm, hexp.not_knows hm, .isolate hwf (hexp.valid hvalid) (fun w => hexp.not_knows) hm⟩

end Store

/-! ### The ways in which an assertion ends -/

namespace Progress

inductive Asserted (setting : Setting) (progress : Progress) (p : LinearForm) : Attempt → Prop where
  | noHost (host : setting.host = none) : Asserted setting progress p (progress.reject .noHost)
  | invalid (host : setting.host ≠ none) (invalid : p.valid = false) :
    Asserted setting progress p (progress.reject .divisionByZero)
  | redundant (host : setting.host ≠ none) (valid : p.valid) {q : LinearForm}
      (expand : progress.store.expand p = .ok q)
      (value : (q.flush setting.threshold).value? = some 0) :
    Asserted setting progress p ((progress.record (.asserted p)).record .redundant).accept
  | inconsistent (host : setting.host ≠ none) (valid : p.valid) {q : LinearForm}
      (expand : progress.store.expand p = .ok q) {r : Rat} (ne_zero : r ≠ 0)
      (value : (q.flush setting.threshold).value? = some r) :
    Asserted setting progress p
      (((progress.record (.asserted p)).record (.offBy r)).reject (.inconsistent r))
  | solved (host : setting.host ≠ none) (valid : p.valid) {q : LinearForm}
      (expand : progress.store.expand p = .ok q) {v : Var} {c : Rat}
      (pivot : setting.pivot? progress.store (q.flush setting.threshold) = some (v, c)) :
    Asserted setting progress p
      ((progress.record (.asserted p)).withRule setting v
        (((q.flush setting.threshold).isolate v).flush setting.threshold)).accept

variable {progress : Progress} {attempt : Attempt}

theorem solve_eq_ok (h : progress.store.WellFormed) (hp : p.WellFormed) (hvalid : p.valid)
    (hfree : ∀ w, p.mentions w → progress.store.knows w = false)
    (hpivot : setting.pivot? progress.store p = some (v, c)) :
    progress.solve setting p =
      .ok (progress.withRule setting v ((p.isolate v).flush setting.threshold)).accept := by
  have hmem := Setting.mem_of_pivot? hpivot
  have hv := hp.key_ne_constant _ hmem
  have hc := hp.coeff_ne_zero _ hmem
  have hcoeff := LinearForm.coeff_of_mem hp hmem
  have hm := (LinearForm.mentions_iff_exists hp).mpr ⟨c, hmem⟩
  have hadmits : progress.store.Admits v ((p.isolate v).flush setting.threshold) :=
    .isolate hp hvalid hfree hm
  have hrest : (p.withCoeff v 0).divide (-c) = .ok (p.isolate v) := by
    rw [← hcoeff]
    exact LinearForm.divide_withCoeff_zero (LinearForm.coeff_ne_zero_of_mentions hp hm)
  unfold solve
  rw [hpivot]
  dsimp only
  rw [if_neg (not_or.mpr ⟨hv, hc⟩), LinearForm.setTerm, if_neg hv]
  simp only [bind, Except.bind, hrest, addRule_eq_ok h hadmits (hfree v hm)]
  rfl

theorem Asserted.assert_eq (ha : Asserted setting progress p attempt)
    (h : progress.store.WellFormed) (hp : p.WellFormed) :
    progress.assert setting p = .ok attempt := by
  have hsome (host : setting.host ≠ none) : ¬setting.host.isNone := fun hnone =>
    host (Option.isNone_iff_eq_none.mp hnone)
  have hreduce {q : LinearForm} (hq : progress.store.expand p = .ok q) :
      (progress.record (.asserted p)).store.reduce setting.threshold p =
        .ok (q.flush setting.threshold) :=
    Store.reduce_of_expand hq _
  unfold assert
  cases ha with
  | noHost host => rw [if_pos (Option.isNone_iff_eq_none.mpr host)]
  | invalid host invalid => rw [if_neg (hsome host), if_pos (by rw [invalid]; rfl)]
  | redundant host valid expand value =>
    rw [if_neg (hsome host), if_neg (by simp [valid])]
    simp only [hreduce expand, bind, Except.bind, value, if_pos]
    rfl
  | inconsistent host valid expand ne_zero value =>
    rw [if_neg (hsome host), if_neg (by simp [valid])]
    simp only [hreduce expand, bind, Except.bind, value, if_neg ne_zero]
    rfl
  | solved host valid expand pivot =>
    have hexp := Store.Expands.of_expand h hp expand
    have hvalue : (LinearForm.flush setting.threshold _).value? = none :=
      LinearForm.value?_eq_none_iff.mpr (Setting.not_isConstant_of_pivot? pivot)
    rw [if_neg (hsome host), if_neg (by simp [valid])]
    simp only [hreduce expand, bind, Except.bind, hvalue]
    have hstore : (progress.record (.asserted p)).store.WellFormed := h
    exact solve_eq_ok hstore (hexp.wellFormed.flush _) (hexp.valid valid)
      (fun w => hexp.not_knows) pivot

/-- On a store in solved form an assertion ends in one of these ways. -/
theorem exists_assert (setting : Setting) (h : progress.store.WellFormed) (hp : p.WellFormed) :
    ∃ attempt, progress.assert setting p = .ok attempt ∧ Asserted setting progress p attempt := by
  suffices ∃ attempt, Asserted setting progress p attempt from
    this.imp fun _ ha => ⟨ha.assert_eq h hp, ha⟩
  by_cases host : setting.host = none
  · exact ⟨_, .noHost host⟩
  cases hvalid : p.valid with
  | false => exact ⟨_, .invalid host hvalid⟩
  | true =>
    obtain ⟨q, hq, -⟩ := Store.exists_expand h hp
    cases hvalue : (q.flush setting.threshold).value? with
    | some r =>
      by_cases hr : r = 0
      · exact ⟨_, .redundant host hvalid hq (hr ▸ hvalue)⟩
      · exact ⟨_, .inconsistent host hvalid hq hr hvalue⟩
    | none =>
      obtain ⟨⟨v, c⟩, hpivot⟩ := Setting.exists_pivot? setting progress.store
        (LinearForm.value?_eq_none_iff.mp hvalue)
      exact ⟨_, .solved host hvalid hq hpivot⟩

namespace Asserted

theorem wellFormed (ha : Asserted setting progress p attempt) (h : progress.store.WellFormed)
    (hp : p.WellFormed) : attempt.store.WellFormed := by
  cases ha with
  | noHost | invalid | redundant | inconsistent => exact h
  | solved host valid expand pivot =>
    obtain ⟨-, hfree, hadmits⟩ := Store.admits_of_pivot? h hp valid expand pivot
    show (Progress.withRule ..).store.WellFormed
    rw [store_withRule]
    exact h.addRule hadmits hfree

theorem store_eq_of_error (ha : Asserted setting progress p attempt)
    (hverdict : attempt.verdict ≠ .ok ()) : attempt.store = progress.store := by
  cases ha with
  | noHost | invalid | inconsistent => rfl
  | redundant | solved => exact absurd rfl hverdict

/-- At the threshold zero an accepted equation leaves the solutions at which it holds. -/
theorem satisfies (ha : Asserted setting progress p attempt) (h : progress.store.WellFormed)
    (hp : p.WellFormed) (hexact : setting.threshold = 0) (hverdict : attempt.verdict = .ok ()) :
    attempt.store.Satisfies s ↔ progress.store.Satisfies s ∧ p.eval s = 0 := by
  cases ha with
  | noHost | invalid | inconsistent => cases hverdict
  | redundant host valid expand value =>
    rw [hexact, LinearForm.flush_zero, LinearForm.value?_eq_some_iff] at value
    refine ⟨fun hs => ⟨hs, ?_⟩, And.left⟩
    rw [← (Store.Expands.of_expand h hp expand).eval_of_satisfies h hs,
      LinearForm.eval_of_isConstant value.1, value.2]
  | solved host valid expand pivot =>
    obtain ⟨hm, hfree, hadmits⟩ := Store.admits_of_pivot? h hp valid expand pivot
    have hexp := Store.Expands.of_expand h hp expand
    show (Progress.withRule ..).store.Satisfies s ↔ _
    rw [store_withRule]
    rw [hexact, LinearForm.flush_zero] at hm
    rw [hexact, LinearForm.flush_zero, LinearForm.flush_zero] at hadmits ⊢
    show (progress.store.addRule ..).Satisfies s ↔ _
    rw [Store.satisfies_addRule h hadmits hfree, LinearForm.eq_eval_isolate_iff hexp.wellFormed hm,
      and_comm]
    exact and_congr_right fun hs => by rw [hexp.eval_of_satisfies h hs]

end Asserted

end Progress

/-- The verdict on `0 = p` that the solutions of the store call for: it is rejected if no solution
satisfies it, and the residue is the value that `p` has at all of them. -/
structure Store.Decides (store : Store) (p : LinearForm) (verdict : Except Rejection Unit) :
    Prop where
  rejected_iff : verdict ≠ .ok () ↔ ∀ s, store.Satisfies s → p.eval s ≠ 0
  residue : ∀ rejection, verdict = .error rejection →
    ∃ r, rejection = .inconsistent r ∧ r ≠ 0 ∧ ∀ s, store.Satisfies s → p.eval s = r

/-- At the threshold zero the verdict is the one that the solutions call for. -/
theorem Progress.Asserted.decides {progress : Progress} {attempt : Attempt}
    (ha : Asserted setting progress p attempt) (h : progress.store.WellFormed) (hp : p.WellFormed)
    (hvalid : p.valid) (hhost : setting.host ≠ none) (hexact : setting.threshold = 0) :
    progress.store.Decides p attempt.verdict := by
  have haccepted : attempt.verdict = .ok () → progress.store.Decides p attempt.verdict := by
    intro hverdict
    refine ⟨iff_of_false (fun hn => hn hverdict) fun hall => ?_, fun rejection hr => ?_⟩
    -- the new store has a solution, at which the equation holds
    · obtain ⟨hs, hzero⟩ := (ha.satisfies h hp hexact hverdict).mp
        (Store.satisfies_complete (ha.wellFormed h hp) fun _ => 0)
      exact hall _ hs hzero
    · rw [hverdict] at hr
      cases hr
  cases ha with
  | noHost host => exact absurd host hhost
  | invalid _ invalid =>
    rw [hvalid] at invalid
    cases invalid
  | redundant | solved => exact haccepted rfl
  | @inconsistent _ _ q expand r hr value =>
    rw [hexact, LinearForm.flush_zero, LinearForm.value?_eq_some_iff] at value
    have hvalue : ∀ s, progress.store.Satisfies s → p.eval s = r := fun s hs => by
      rw [← (Store.Expands.of_expand h hp expand).eval_of_satisfies h hs,
        LinearForm.eval_of_isConstant value.1, value.2]
    refine ⟨iff_of_true (fun heq => by cases heq) fun s hs => hvalue s hs ▸ hr, ?_⟩
    rintro rejection hrej
    cases hrej
    exact ⟨r, rfl, hr, hvalue⟩

end SolvedForm
