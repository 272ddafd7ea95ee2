import Mathlib.Algebra.Order.Field.Basic
import SolvedForm.Proofs.LinearForm.Flushing
import SolvedForm.Proofs.Solver.Safety

/-!
# The variable an equation is solved for

Terms are ranked by the size of their coefficients, equal ones by their variables (`Outranks`), and
the greatest term of a form outranks all that are not excluded. A reduced equation has no dependent
variable, so its pivot is the first in this order of the variables in use, or of all if none is
(`Setting.leads_of_pivot?`). Divided by so great a coefficient the others are at most one
(`LinearForm.abs_coeff_isolate_le_one`), unless the pivot had to give way to a retired variable.
-/

namespace SolvedForm

variable {setting : Setting} {store : Store} {p q : LinearForm} {excluded : Var → Bool} {v w : Var}
  {c : Rat}

namespace LinearForm

/-- The coefficient of `t` is greater in size than that of `u`, or it is as great and the variable
of `t` is not after that of `u`. -/
def Outranks (t u : Var × Rat) : Prop :=
  |u.2| < |t.2| ∨ |u.2| = |t.2| ∧ t.1 ≤ u.1

theorem Outranks.refl (t : Var × Rat) : Outranks t t :=
  .inr ⟨rfl, Nat.le_refl _⟩

theorem Outranks.trans {t u x : Var × Rat} (htu : Outranks t u) (hux : Outranks u x) :
    Outranks t x := by
  rcases htu with htu | ⟨htu, htu'⟩ <;> rcases hux with hux | ⟨hux, hux'⟩
  · exact .inl (hux.trans htu)
  · exact .inl (hux ▸ htu)
  · exact .inl (htu ▸ hux)
  · exact .inr ⟨hux.trans htu, Nat.le_trans htu' hux'⟩

theorem greaterTerm_some {b u : Var × Rat} (h : b.1 < u.1) :
    greaterTerm (some b) u = some u ∧ Outranks u b ∨
      greaterTerm (some b) u = some b ∧ Outranks b u := by
  unfold greaterTerm
  dsimp only
  rw [Magnitude.abs_eq, Magnitude.abs_eq]
  split
  · rename_i hlt
    exact .inl ⟨rfl, .inl hlt⟩
  · rename_i hle
    refine .inr ⟨rfl, (lt_or_eq_of_le (not_lt.mp hle)).imp id fun heq => ⟨heq, Nat.le_of_lt h⟩⟩

theorem outranks_of_foldl_greaterTerm {terms : List (Var × Rat)} {b t : Var × Rat}
    (hsorted : (b :: terms).Pairwise fun x y => x.1 < y.1)
    (h : terms.foldl greaterTerm (some b) = some t) :
    Outranks t b ∧ ∀ u ∈ terms, Outranks t u := by
  induction terms generalizing b with
  | nil =>
    cases h
    exact ⟨.refl t, fun _ hu => absurd hu List.not_mem_nil⟩
  | cons u terms ih =>
    obtain ⟨hb, hterms⟩ := List.pairwise_cons.mp hsorted
    have hbu : b.1 < u.1 := hb u (List.mem_cons_self ..)
    rw [List.foldl_cons] at h
    rcases greaterTerm_some hbu with ⟨hstep, hub⟩ | ⟨hstep, hbu⟩
    · rw [hstep] at h
      obtain ⟨htu, hall⟩ := ih hterms h
      exact ⟨htu.trans hub, List.forall_mem_cons.mpr ⟨htu, hall⟩⟩
    -- `b` stays the best so far, and is still before all terms to come
    · rw [hstep] at h
      have hsorted' : (b :: terms).Pairwise fun x y => x.1 < y.1 :=
        List.pairwise_cons.mpr ⟨fun x hx => hb x (List.mem_cons_of_mem _ hx),
          (List.pairwise_cons.mp hterms).2⟩
      obtain ⟨htb, hall⟩ := ih hsorted' h
      exact ⟨htb, List.forall_mem_cons.mpr ⟨htb.trans hbu, hall⟩⟩

/-! ### The leading variable of a form -/

/-- Of the variables `vs` of `q` it is `v` whose coefficient is greatest in size, and of those with
coefficients of that size it is the least. -/
structure Leads (q : LinearForm) (vs : List Var) (v : Var) : Prop where
  mem : v ∈ vs
  greatest : ∀ w ∈ vs, |q.coeff w| ≤ |q.coeff v|
  least : ∀ w ∈ vs, |q.coeff w| = |q.coeff v| → v ≤ w

theorem mem_filter_support (hq : q.WellFormed) {keep : Var → Bool} :
    w ∈ q.support.filter keep ↔ ∃ a, (w, a) ∈ q.terms.toList.filter fun t => keep t.1 := by
  simp only [List.mem_filter, mem_support hq, mentions_iff_exists hq, exists_and_right]

theorem outranks_of_greatestTerm? (hq : q.WellFormed) {t : Var × Rat}
    (h : q.greatestTerm? excluded = some t) :
    t ∈ q.terms.toList.filter (fun t => !excluded t.1) ∧
      ∀ u ∈ q.terms.toList.filter fun t => !excluded t.1, Outranks t u := by
  refine ⟨(mem_of_foldl_greaterTerm h).resolve_right nofun, ?_⟩
  have hsorted : (q.terms.toList.filter fun t => !excluded t.1).Pairwise fun x y => x.1 < y.1 :=
    List.Pairwise.filter _ hq.sorted
  unfold greatestTerm? at h
  cases hterms : q.terms.toList.filter fun t => !excluded t.1 with
  | nil => exact fun _ hu => absurd hu List.not_mem_nil
  | cons b terms =>
    rw [hterms] at h hsorted
    exact List.forall_mem_cons.mpr (outranks_of_foldl_greaterTerm hsorted h)

theorem leads_of_greatestTerm? (hq : q.WellFormed)
    (h : q.greatestTerm? excluded = some (v, c)) :
    q.Leads (q.support.filter fun w => !excluded w) v := by
  obtain ⟨hmem, houtranks⟩ := outranks_of_greatestTerm? hq h
  have hc : q.coeff v = c := coeff_of_mem hq (List.mem_filter.mp hmem).1
  have hterm : ∀ w ∈ q.support.filter fun w => !excluded w,
      Outranks (v, q.coeff v) (w, q.coeff w) := by
    intro w hw
    obtain ⟨a, ha⟩ := (mem_filter_support hq).mp hw
    rw [hc, coeff_of_mem hq (List.mem_filter.mp ha).1]
    exact houtranks _ ha
  refine ⟨(mem_filter_support hq).mpr ⟨c, hmem⟩, ?greatest, ?least⟩
  case greatest =>
    intro w hw
    rcases hterm w hw with hlt | ⟨heq, -⟩
    · exact le_of_lt hlt
    · exact le_of_eq heq
  case least =>
    intro w hw heq
    rcases hterm w hw with hlt | ⟨-, hle⟩
    · exact absurd heq (ne_of_lt hlt)
    · exact hle

theorem greatestTerm?_eq_none_iff (hq : q.WellFormed) :
    q.greatestTerm? excluded = none ↔ q.support.filter (fun w => !excluded w) = [] := by
  have hnil : q.support.filter (fun w => !excluded w) = [] ↔
      (q.terms.toList.filter fun t => !excluded t.1) = [] := by
    simp only [List.eq_nil_iff_forall_not_mem, mem_filter_support hq, Prod.forall, not_exists]
  rw [hnil, greatestTerm?]
  cases q.terms.toList.filter fun t => !excluded t.1 with
  | nil => exact iff_of_true rfl rfl
  | cons b terms =>
    refine iff_of_false (fun hnone => ?_) (List.cons_ne_nil b terms)
    have hsome := isSome_foldl_greaterTerm terms b
    rw [← Option.not_isSome_iff_eq_none] at hnone
    exact hnone hsome

theorem abs_coeff_isolate_le_one (hq : q.WellFormed) (hv : q.mentions v)
    (hgreatest : ∀ w, q.mentions w → |q.coeff w| ≤ |q.coeff v|) (hw : w ≠ Var.constant) :
    |(q.isolate v).coeff w| ≤ 1 := by
  have hcoeff : |if w = v then 0 else q.coeff w| ≤ |q.coeff v| := by
    split
    · rw [abs_zero]
      exact abs_nonneg _
    · by_cases hm : q.mentions w
      · exact hgreatest w hm
      · rw [coeff_of_not_mentions hw hm, abs_zero]
        exact abs_nonneg _
  have hpos : 0 < |q.coeff v| := abs_pos.mpr (coeff_ne_zero_of_mentions hq hv)
  rw [coeff_isolate hq (ne_constant_of_mentions hq hv), abs_mul, inv_neg, abs_neg, abs_inv]
  calc |q.coeff v|⁻¹ * |if w = v then 0 else q.coeff w|
      ≤ |q.coeff v|⁻¹ * |q.coeff v| :=
        mul_le_mul_of_nonneg_left hcoeff (inv_nonneg.mpr (abs_nonneg _))
    _ = 1 := inv_mul_cancel₀ (ne_of_gt hpos)

end LinearForm

/-- The variables that an equation may be solved for: those that are not retired, or else all. -/
def Setting.eligible (setting : Setting) (q : LinearForm) : List Var :=
  let inUse := q.support.filter fun v => !setting.isRetired v
  if inUse.isEmpty then q.support else inUse

theorem Setting.leads_of_pivot? (hq : q.WellFormed)
    (hfree : ∀ w, q.mentions w → store.knows w = false)
    (h : setting.pivot? store q = some (v, c)) : q.Leads (setting.eligible q) v := by
  have hinUse : (q.support.filter fun w => !(store.dependents.contains w || setting.isRetired w)) =
      q.support.filter fun w => !setting.isRetired w := by
    refine List.filter_congr fun w hw => ?_
    have hw := hfree w ((LinearForm.mem_support hq).mp hw)
    rw [Store.knows, Bool.or_eq_false_iff] at hw
    rw [hw.2, Bool.false_or]
  unfold eligible
  rcases Option.or_eq_some_iff.mp h with h | ⟨hnone, h⟩
  · have hleads := LinearForm.leads_of_greatestTerm? hq h
    rw [hinUse] at hleads
    rw [if_neg fun hnil => List.not_mem_nil (List.isEmpty_iff.mp hnil ▸ hleads.mem)]
    exact hleads
  · rw [LinearForm.greatestTerm?_eq_none_iff hq, hinUse] at hnone
    rw [if_pos (List.isEmpty_iff.mpr hnone)]
    have hleads := LinearForm.leads_of_greatestTerm? hq h
    have hall : q.support.filter (fun w => !(fun _ => false) w) = q.support :=
      List.filter_eq_self.mpr fun _ _ => rfl
    rwa [hall] at hleads

theorem Setting.eligible_of_not_isRetired
    (hnone : ∀ w, q.mentions w → setting.isRetired w = false) (hq : q.WellFormed) :
    setting.eligible q = q.support := by
  have hinUse : (q.support.filter fun w => !setting.isRetired w) = q.support := by
    refine List.filter_eq_self.mpr fun w hw => ?_
    rw [hnone w ((LinearForm.mem_support hq).mp hw)]
    rfl
  unfold eligible
  rw [hinUse]
  exact ite_self _

/-- The reduced equation `0 = q` would be solved for `v`. -/
structure Solver.PivotsOn (solver : Solver) (q : LinearForm) (v : Var) : Prop where
  pivot : solver.pivot? solver.store q = some (v, q.coeff v)
  leads : q.Leads (solver.eligible q) v
  not_solved : solver.isSolved v = false
  not_dependent : solver.isDependent v = false

/-- The attempt made a rule for `v` of the reduced equation `0 = q`. -/
structure Attempt.SolvesFor (attempt : Attempt) (solver : Solver) (q : LinearForm) (v : Var) :
    Prop where
  accepted : attempt.verdict = .ok ()
  /-- No other variable becomes known. -/
  knows_iff : ∀ w, attempt.store.knows w = true ↔ w = v ∨ solver.store.knows w = true
  /-- The rule is the rest of the equation, divided and then flushed. Where no variable is retired,
  the coefficients before the flush are at most one in size. -/
  rule : ∃ rest rhs, q.setTerm v 0 = .ok rest ∧ rest.divide (-q.coeff v) = .ok rhs ∧
    attempt.store.rule? v = some (rhs.flush solver.threshold) ∧
    ((∀ w, q.mentions w → solver.isRetired w = false) →
      ∀ w, w ≠ Var.constant → |rhs.coeff w| ≤ 1)

namespace Solver

variable {solver : Solver}

theorem pivotsOn_of_pivot? (hq : q.WellFormed)
    (hfree : ∀ w, q.mentions w → solver.store.knows w = false)
    (h : solver.pivot? solver.store q = some (v, c)) : solver.PivotsOn q v := by
  have hmem := Setting.mem_of_pivot? h
  have hv := hfree v ((LinearForm.mentions_iff_exists hq).mpr ⟨c, hmem⟩)
  rw [Store.knows, Bool.or_eq_false_iff] at hv
  refine ⟨?_, Setting.leads_of_pivot? hq hfree h, hv.1, hv.2⟩
  rw [h, LinearForm.coeff_of_mem hq hmem]

theorem exists_assert_solvesFor (h : solver.store.WellFormed) (hp : p.WellFormed)
    (hhost : solver.host ≠ none) (hvalid : p.valid) (hexpand : solver.store.expand p = .ok q)
    (hpivot : solver.PivotsOn (q.flush solver.threshold) v) :
    ∃ attempt, solver.progress.assert solver.toSetting p = .ok attempt ∧
      attempt.SolvesFor solver (q.flush solver.threshold) v := by
  have hprogress : solver.progress.store.WellFormed := h
  have hq := (Store.Expands.of_expand h hp hexpand).wellFormed.flush solver.threshold
  obtain ⟨hm, hfree, hadmits⟩ := Store.admits_of_pivot? h hp hvalid hexpand hpivot.pivot
  have hv := LinearForm.ne_constant_of_mentions hq hm
  have hexpand' : solver.progress.store.expand p = .ok q := hexpand
  have ha := Progress.Asserted.solved hhost hvalid hexpand' hpivot.pivot
  have hstore : (solver.progress.record (.asserted p)).store = solver.store := rfl
  refine ⟨_, ha.assert_eq hprogress hp, ⟨rfl, fun w => ?_, ?_⟩⟩
  · rw [Progress.accept, Progress.store_withRule, hstore]
    exact Store.knows_addRule h hadmits hfree
  refine ⟨(q.flush solver.threshold).withCoeff v 0, (q.flush solver.threshold).isolate v,
    if_neg hv, ?_, ?_, fun hnone w hw => ?_⟩
  · exact LinearForm.divide_withCoeff_zero (LinearForm.coeff_ne_zero_of_mentions hq hm)
  · rw [Progress.accept, Progress.store_withRule, hstore]
    exact Store.rule?_addRule h hadmits hfree
  · refine LinearForm.abs_coeff_isolate_le_one hq hm (fun u hu => ?_) hw
    have hleads := hpivot.leads
    rw [Setting.eligible_of_not_isRetired hnone hq] at hleads
    exact hleads.greatest u ((LinearForm.mem_support hq).mpr hu)

end Solver

namespace Run

/-- What is left of an equation after reduction is solved for its leading variable among those in
use, which nothing is known of. -/
theorem pivotsOn_of_calls (setting : Setting) {calls : List Call}
    (hcalls : ∀ call ∈ calls, call.WellFormed) :
    ∃ run, (start setting).calls calls = .ok run ∧ ∀ p, p.WellFormed →
      ∃ q, run.solver.store.reduce run.solver.threshold p = .ok q ∧ (¬q.isConstant →
        ∃ v, run.solver.PivotsOn q v ∧ (run.solver.host ≠ none → p.valid →
          ∃ attempt, run.solver.progress.assert run.solver.toSetting p = .ok attempt ∧
            attempt.SolvesFor run.solver q v)) := by
  obtain ⟨run, hrun, h⟩ := exists_calls (start setting) Store.wellFormed_empty hcalls
  refine ⟨run, hrun, fun p hp => ?_⟩
  obtain ⟨q, hexpand, hexp⟩ := Store.exists_expand h hp
  refine ⟨_, Store.reduce_of_expand hexpand _, fun hconst => ?_⟩
  obtain ⟨⟨v, c⟩, hpivot⟩ := Setting.exists_pivot? run.solver.toSetting run.solver.store hconst
  have hon := Solver.pivotsOn_of_pivot? (hexp.wellFormed.flush _) (fun w => hexp.not_knows) hpivot
  exact ⟨v, hon, fun hhost hvalid =>
    Solver.exists_assert_solvesFor h hp hhost hvalid hexpand hon⟩

/-- The retired `x₁` has the greatest coefficient and `x₅ = 1 + x₆` is dependent, so that `x₂`
leads, before `x₃` with a coefficient of the same size. Where `x₁` is all that there is, it is solved
for after all. -/
theorem pivotsOn_of_calls_tie :
    ∃ run, (start {}).calls [.attach { nameOf := Var.genericName, isRetired := fun v => v == 1 },
        .add (.ofTerms (-1) [(5, 1), (6, -1)])] = .ok run ∧
      (run.solver.PivotsOn (.ofTerms 5 [(1, 9), (2, -4), (3, 4), (6, 2)]) 2 ∧
        ∃ attempt, run.solver.progress.assert run.solver.toSetting
            (.ofTerms 3 [(1, 9), (2, -4), (3, 4), (5, 2)]) = .ok attempt ∧
          attempt.SolvesFor run.solver (.ofTerms 5 [(1, 9), (2, -4), (3, 4), (6, 2)]) 2) ∧
      run.solver.PivotsOn (.ofTerms 7 [(1, -2)]) 1 := by
  refine (pivotsOn_of_calls {} ?_).imp fun run h => ⟨h.1, ?_⟩
  · simp [Call.WellFormed, LinearForm.WellFormed.ofTerms]
  obtain ⟨hrun, hpivots⟩ := h
  obtain ⟨q, hq, hchoice⟩ := hpivots (.ofTerms 3 [(1, 9), (2, -4), (3, 4), (5, 2)]) (.ofTerms ..)
  obtain ⟨q', hq', hchoice'⟩ := hpivots (.ofTerms 7 [(1, -2)]) (.ofTerms ..)
  have hreduced := apply_eq_of_map_eq_ok
    (b := (true, .ok (.ofTerms 5 [(1, 9), (2, -4), (3, 4), (6, 2)]), .ok (.ofTerms 7 [(1, -2)])))
    (f := fun run : Run => (run.solver.host.isSome,
      run.solver.store.reduce run.solver.threshold (.ofTerms 3 [(1, 9), (2, -4), (3, 4), (5, 2)]),
      run.solver.store.reduce run.solver.threshold (.ofTerms 7 [(1, -2)])))
    hrun (by decide +kernel)
  have hpivot := apply_eq_of_map_eq_ok (b := (some (2, -4), some (1, -2)))
    (f := fun run : Run =>
      (run.solver.pivot? run.solver.store (.ofTerms 5 [(1, 9), (2, -4), (3, 4), (6, 2)]),
        run.solver.pivot? run.solver.store (.ofTerms 7 [(1, -2)])))
    hrun (by decide +kernel)
  rw [hq, hq'] at hreduced
  obtain ⟨hhost, hreduced⟩ := Prod.mk.inj hreduced
  obtain ⟨hreduced, hreduced'⟩ := Prod.mk.inj hreduced
  obtain ⟨hpivot, hpivot'⟩ := Prod.mk.inj hpivot
  cases hreduced
  cases hreduced'
  obtain ⟨v, hon, hsolves⟩ := hchoice (by decide +kernel)
  obtain ⟨v', hon', -⟩ := hchoice' (by decide +kernel)
  obtain ⟨rfl, -⟩ := Prod.mk.inj (Option.some.inj (hon.pivot.symm.trans hpivot))
  obtain ⟨rfl, -⟩ := Prod.mk.inj (Option.some.inj (hon'.pivot.symm.trans hpivot'))
  exact ⟨⟨hon, hsolves (Option.isSome_iff_ne_none.mp hhost) rfl⟩, hon'⟩

end Run

end SolvedForm
