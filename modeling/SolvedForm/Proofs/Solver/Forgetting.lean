import SolvedForm.Proofs.LinearForm.Flushing
import SolvedForm.Proofs.Solver.Notification

/-!
# What retiring variables loses and finds

Retiring loses the values of the retired variables and no others. It also finds values, though only
by flushing: `store.Collapses eps v w c` says that the right-hand side of `w` is flushed to the
constant `c` once `v` has been replaced in it through its holder. Those are the variables that are
solved and notified as `v` retires (`Store.mem_solved_retire_iff`, `Run.forgets_of_calls`), and
where nothing is flushed there are none (`Store.not_collapses_of_nonpos`).
-/

namespace SolvedForm

variable {setting : Setting} {store : Store} {rhs holder value : LinearForm} {v w y : Var}
  {c eps : Rat} {vs : List Var}

namespace LinearForm

/-- The holder comes into a right-hand side with the ratio of the two coefficients of `v`. -/
theorem coeff_replace_invert (hrhs : rhs.WellFormed) (hholder : holder.WellFormed)
    (hy : y ≠ Var.constant) (hv : v ≠ Var.constant) (hyv : y ≠ v) (hrhs0 : rhs.coeff y = 0)
    (hholder0 : holder.coeff y = 0) :
    (rhs.replace v (holder.invert y v)).coeff y = rhs.coeff v * (holder.coeff v)⁻¹ := by
  have hvar := (WellFormed.ofConstant 0).withCoeff hy 1
  rw [coeff_replace hrhs hv (hholder.invert hy hv), if_neg hyv, hrhs0, zero_add, invert,
    coeff_scale (hvar.sub (hholder.withCoeff hv 0)), coeff_sub hvar (hholder.withCoeff hv 0),
    coeff_withCoeff (.ofConstant 0) hy, if_pos rfl, coeff_withCoeff hholder hv, if_neg hyv,
    hholder0, sub_zero, mul_one]

end LinearForm

namespace Store

/-- As `v` retires, the right-hand side of `w` is flushed to `c`. -/
def Collapses (store : Store) (eps : Rat) (v w : Var) (c : Rat) : Prop :=
  ∃ y holder rhs, store.holder? v = some (y, holder) ∧ (w, rhs) ∈ store.dependents.toList ∧
    w ≠ y ∧ rhs.mentions v ∧ ((rhs.replace v (holder.invert y v)).flush eps).value? = some c

theorem not_knows_of_holder? (h : store.WellFormed)
    (hholder : store.holder? v = some (y, holder)) : store.knows v = false := by
  rw [← Bool.not_eq_true]
  intro hk
  cases (holder?_of_knows h hk).symm.trans hholder

theorem retire_of_holder? (h : store.WellFormed) (hholder : store.holder? v = some (y, holder)) :
    store.retire eps v = (store.release y).inline eps v (holder.invert y v) := by
  rw [Store.retire, forget_of_not_knows (not_knows_of_holder? h hholder), hholder]

theorem rule?_retire (h : store.WellFormed) (hholder : store.holder? v = some (y, holder))
    (w : Var) : (store.retire eps v).rule? w = if w = y then none
      else (store.rule? w).map fun rhs => rhs.inline eps v (holder.invert y v) := by
  obtain ⟨hmem, -⟩ := mem_of_holder? hholder
  obtain ⟨hbut, hadmits⟩ := Admits.invert h (not_knows_of_holder? h hholder) hholder
  rw [retire_of_holder? h hholder, hbut.rule?_inline hadmits, release_eq_forget h hmem,
    rule?_forget h]
  split <;> rfl

theorem not_collapses_of_holder?_eq_none (hholder : store.holder? v = none) :
    ¬store.Collapses eps v w c := by
  rintro ⟨y, holder, rhs, hsome, -⟩
  cases hholder.symm.trans hsome

theorem collapses_iff_mem_collapsed (h : store.WellFormed)
    (hholder : store.holder? v = some (y, holder)) :
    store.Collapses eps v w c ↔ (w, c) ∈
      (Sweep.ofRows eps v (holder.invert y v) (store.release y).dependents.toList).collapsed := by
  have hrows : ∀ row ∈ (store.release y).dependents.toList, ¬row.2.isConstant := fun row hrow =>
    h.rhs_not_constant row ((Table.mem_toList_erase h.dependents_sorted).mp hrow).1
  rw [Sweep.mem_collapsed_iff hrows]
  constructor
  · rintro ⟨y', holder', rhs, hholder', hrhs, hne, hvalue⟩
    cases hholder.symm.trans hholder'
    exact ⟨rhs, (Table.mem_toList_erase h.dependents_sorted).mpr ⟨hrhs, hne⟩, hvalue⟩
  · rintro ⟨rhs, hrhs, hvalue⟩
    obtain ⟨hrhs, hne⟩ := (Table.mem_toList_erase h.dependents_sorted).mp hrhs
    exact ⟨y, holder, rhs, hholder, hrhs, hne, hvalue⟩

theorem collapses_forget_iff (h : store.WellFormed) :
    (store.forget v).Collapses eps v w c ↔ store.Collapses eps v w c := by
  cases hv : store.knows v with
  | true =>
    exact iff_of_false (not_collapses_of_holder?_eq_none (holder?_forget_of_knows h hv))
      (not_collapses_of_holder?_eq_none (holder?_of_knows h hv))
  | false => rw [forget_of_not_knows hv]

theorem coeff_of_knows (h : store.WellFormed) (hy : store.knows y = true)
    (hrhs : (w, rhs) ∈ store.dependents.toList) : rhs.coeff y = 0 :=
  LinearForm.coeff_of_not_mentions (ne_constant_of_knows h hy) (not_mentions_of_knows h hy hrhs)

/-- The ratio of the two coefficients of `v` is near zero, or it would keep the holder on the
right-hand side. -/
theorem Collapses.nearZero (h : store.WellFormed) (hc : store.Collapses eps v w c) :
    ∃ y holder rhs, store.holder? v = some (y, holder) ∧ (w, rhs) ∈ store.dependents.toList ∧
      Magnitude.NearZero eps (rhs.coeff v * (holder.coeff v)⁻¹) := by
  obtain ⟨y, holder, rhs, hholder, hrhs, -, hm, hvalue⟩ := hc
  obtain ⟨hmem, hmholder⟩ := mem_of_holder? hholder
  have hhwf : holder.WellFormed := h.rhs_wellFormed _ hmem
  have hrwf : rhs.WellFormed := h.rhs_wellFormed _ hrhs
  have hky : store.knows y = true := knows_of_mem_dependents h.dependents_sorted hmem
  have hy := ne_constant_of_knows h hky
  have hv := LinearForm.ne_constant_of_mentions hrwf hm
  have hcoeff := LinearForm.coeff_ne_zero_of_mentions hrwf hm
  have hyv : y ≠ v := by
    rintro rfl
    exact hcoeff (coeff_of_knows h hky hrhs)
  -- `y` has no other way onto the right-hand side than through `v`
  have hwf := hrwf.replace hv (hhwf.invert hy hv)
  have hratio := LinearForm.coeff_replace_invert hrwf hhwf hy hv hyv (coeff_of_knows h hky hrhs)
    (coeff_of_knows h hky hmem)
  have hne : (rhs.replace v (holder.invert y v)).coeff y ≠ 0 := by
    rw [hratio]
    exact mul_ne_zero hcoeff (inv_ne_zero (LinearForm.coeff_ne_zero_of_mentions hhwf hmholder))
  refine ⟨y, holder, rhs, hholder, hrhs, ?_⟩
  rw [← hratio]
  obtain ⟨a, ha⟩ := (LinearForm.mentions_iff_exists hwf).mp
    ((LinearForm.mentions_iff_coeff_ne_zero hwf hy).mpr hne)
  rw [LinearForm.coeff_of_mem hwf ha]
  exact LinearForm.isConstant_flush_iff.mp (LinearForm.value?_eq_some_iff.mp hvalue).1 (y, a) ha

theorem not_collapses_of_nonpos (h : store.WellFormed) (heps : eps ≤ 0) :
    ¬store.Collapses eps v w c := fun hc => by
  obtain ⟨y, holder, rhs, -, -, hnear⟩ := hc.nearZero h
  exact Magnitude.not_nearZero_of_nonpos heps _ hnear

/-- A retirement takes a value from the retired variable only, and gives values to those variables
whose right-hand side is emptied. -/
theorem mem_solved_retire_iff (h : store.WellFormed) {row : Var × Rat} :
    row ∈ (store.retire eps v).solved.toList ↔
      row.1 ≠ v ∧ row ∈ store.solved.toList ∨ store.Collapses eps v row.1 row.2 := by
  cases hholder : store.holder? v with
  | none =>
    rw [retire_of_holder?_eq_none h hholder,
      or_iff_left (not_collapses_of_holder?_eq_none hholder), and_comm]
    exact Table.mem_toList_erase h.solved_sorted
  | some rule =>
    obtain ⟨y, holder⟩ := rule
    have hv := not_knows_of_holder? h hholder
    obtain ⟨hbut, -⟩ := Admits.invert h hv hholder
    have hne : row ∈ store.solved.toList → row.1 ≠ v := ne_of_mem_solved h.solved_sorted hv
    rw [retire_of_holder? h hholder, hbut.mem_solved_inline, ← Sweep.mem_collapsed_ofRows,
      ← collapses_iff_mem_collapsed h hholder, or_comm, and_iff_right_of_imp hne]
    rfl

def retireAll (store : Store) (eps : Rat) (vs : List Var) : Store :=
  vs.foldl (fun store v => store.retire eps v) store

/-- As one of the variables `vs` retires, after those before it, the right-hand side of `w` is
flushed to `c`. -/
def CollapsesAmong (store : Store) (eps : Rat) (vs : List Var) (w : Var) (c : Rat) : Prop :=
  ∃ earlier v later, vs = earlier ++ v :: later ∧
    (store.retireAll eps earlier).Collapses eps v w c

theorem not_collapsesAmong_nil : ¬store.CollapsesAmong eps [] w c := by
  rintro ⟨earlier, v, later, heq, -⟩
  simp at heq

theorem collapsesAmong_cons_iff : store.CollapsesAmong eps (v :: vs) w c ↔
    store.Collapses eps v w c ∨ (store.retire eps v).CollapsesAmong eps vs w c := by
  constructor
  · rintro ⟨_ | ⟨u, earlier⟩, v', later, heq, hc⟩
    · cases heq
      exact .inl hc
    · cases heq
      exact .inr ⟨earlier, v', later, rfl, hc⟩
  · rintro (hc | ⟨earlier, v', later, rfl, hc⟩)
    · exact ⟨[], v, vs, rfl, hc⟩
    · exact ⟨v :: earlier, v', later, rfl, hc⟩

theorem WellFormed.retireAll (h : store.WellFormed) (eps : Rat) (vs : List Var) :
    (store.retireAll eps vs).WellFormed := by
  induction vs generalizing store with
  | nil => exact h
  | cons v vs ih => exact ih (h.retire eps v)

theorem not_collapsesAmong_of_nonpos (h : store.WellFormed) (heps : eps ≤ 0) :
    ¬store.CollapsesAmong eps vs w c := by
  rintro ⟨earlier, v, later, -, hc⟩
  exact not_collapses_of_nonpos (h.retireAll eps earlier) heps hc

theorem mem_solved_of_retireAll (h : store.WellFormed) {row : Var × Rat}
    (hrow : row ∈ (store.retireAll eps vs).solved.toList) :
    row ∈ store.solved.toList ∨ store.CollapsesAmong eps vs row.1 row.2 := by
  induction vs generalizing store with
  | nil => exact .inl hrow
  | cons v vs ih =>
    rw [collapsesAmong_cons_iff]
    rcases ih (h.retire eps v) hrow with hrow | hc
    · exact ((mem_solved_retire_iff h).mp hrow).imp And.right .inl
    · exact .inr (.inr hc)

theorem mem_solved_retireAll (h : store.WellFormed) {row : Var × Rat} (hrow : row.1 ∉ vs)
    (hsolved : row ∈ store.solved.toList) : row ∈ (store.retireAll eps vs).solved.toList := by
  induction vs generalizing store with
  | nil => exact hsolved
  | cons v vs ih =>
    rw [List.mem_cons, not_or] at hrow
    obtain ⟨hne, hrow⟩ := hrow
    exact ih (h.retire eps v) hrow ((mem_solved_retire_iff h).mpr (.inl ⟨hne, hsolved⟩))

end Store

/-! ### What the host hears of a retirement -/

namespace Progress

variable {progress : Progress}

def notifications (progress : Progress) : List (Var × Rat) :=
  progress.events.filterMap Event.notification?

theorem notifications_record {event : Event} (he : event.notification? = none) :
    (progress.record event).notifications = progress.notifications := by
  simp [notifications, record, he]

theorem notifications_learn (hhost : setting.host ≠ none) (row : Var × Rat) :
    (progress.learn setting row).notifications = progress.notifications ++ [row] := by
  rw [notifications, learn, if_pos (Option.isSome_iff_ne_none.mpr hhost), List.filterMap_append]
  rfl

theorem notifications_foldl_learn (hhost : setting.host ≠ none) (rows : List (Var × Rat)) :
    (rows.foldl (learn setting) progress).notifications = progress.notifications ++ rows := by
  induction rows generalizing progress with
  | nil => exact (List.append_nil _).symm
  | cons row rows ih =>
    rw [List.foldl_cons, ih, notifications_learn hhost, List.append_assoc, List.singleton_append]

theorem notifications_inline (hhost : setting.host ≠ none) (v : Var) (value : LinearForm) :
    (progress.inline setting v value).notifications = progress.notifications ++
      (Sweep.ofRows setting.threshold v value progress.store.dependents.toList).collapsed := by
  have hsilent {f : Var × LinearForm → Event} (hf : ∀ row, (f row).notification? = none)
      (rows : List (Var × LinearForm)) : (rows.map f).filterMap Event.notification? = [] := by
    rw [List.filterMap_map]
    exact List.filterMap_eq_nil_iff.mpr fun row _ => hf row
  rw [inline, afterSweep, notifications_foldl_learn hhost, notifications, List.filterMap_append,
    hsilent, List.append_nil]
  · rfl
  · exact fun _ => rfl

theorem notifications_drop (progress : Progress) (v : Var) :
    (((progress.record (.retired v)).dropSolved v).dropDependent v).notifications =
      progress.notifications := by
  have hsilent (b : Bool) {event : Event} (he : event.notification? = none) :
      (if b then [event] else []).filterMap Event.notification? = [] := by
    cases b <;> simp [he]
  rw [notifications, events_dropDependent, events_dropSolved, List.filterMap_append,
    List.filterMap_append, hsilent _ rfl, hsilent _ rfl, List.append_nil, List.append_nil]
  exact notifications_record rfl

theorem mem_notifications_withoutHolder (h : progress.store.WellFormed)
    (hheard : setting.host ≠ none ∨ progress.store.dependents.toList = []) {row : Var × Rat} :
    row ∈ (progress.withoutHolder setting v).notifications ↔
      row ∈ progress.notifications ∨
        progress.store.Collapses setting.threshold v row.1 row.2 := by
  unfold withoutHolder
  split
  · rename_i hholder
    exact (or_iff_left (Store.not_collapses_of_holder?_eq_none hholder)).symm
  · rename_i y holder hholder
    have hhost : setting.host ≠ none := hheard.resolve_right fun hnil =>
      List.not_mem_nil (hnil ▸ (Store.mem_of_holder? hholder).1)
    rw [notifications_inline hhost, notifications_record rfl, List.mem_append,
      Store.collapses_iff_mem_collapsed h hholder]
    rfl

theorem mem_notifications_withoutVar (h : progress.store.WellFormed)
    (hheard : setting.host ≠ none ∨ progress.store.dependents.toList = []) {row : Var × Rat} :
    row ∈ (progress.withoutVar setting v).notifications ↔
      row ∈ progress.notifications ∨
        progress.store.Collapses setting.threshold v row.1 row.2 := by
  unfold withoutVar
  rw [mem_notifications_withoutHolder, notifications_drop, store_drop, Store.collapses_forget_iff h]
  · rw [store_drop]
    exact h.forget v
  · refine hheard.imp id fun hnil => ?_
    rw [store_drop, Store.forget, Table.toList_erase h.dependents_sorted, hnil, List.filter_nil]

theorem exists_retire_heard (h : progress.store.WellFormed)
    (hheard : setting.host ≠ none ∨ progress.store.dependents.toList = []) (v : Var) :
    ∃ progress', progress.retire setting v = .ok progress' ∧
      progress'.store = progress.store.retire setting.threshold v ∧
      ∀ row, row ∈ progress'.notifications ↔ row ∈ progress.notifications ∨
        progress.store.Collapses setting.threshold v row.1 row.2 := by
  by_cases hv : v = Var.constant
  · subst v
    have hholder := Store.holder?_constant h
    refine ⟨progress, if_pos rfl, (Store.retire_constant h _).symm, fun row => ?_⟩
    exact (or_iff_left (Store.not_collapses_of_holder?_eq_none hholder)).symm
  · exact ⟨_, retire_eq_ok h hv, store_withoutVar setting progress v,
      fun row => mem_notifications_withoutVar h hheard⟩

theorem exists_retireAll_heard (h : progress.store.WellFormed) (hhost : setting.host ≠ none)
    (vs : List Var) :
    ∃ progress', vs.foldlM (retire setting) progress = .ok progress' ∧
      progress'.store = progress.store.retireAll setting.threshold vs ∧
      ∀ row, row ∈ progress'.notifications ↔ row ∈ progress.notifications ∨
        progress.store.CollapsesAmong setting.threshold vs row.1 row.2 := by
  induction vs generalizing progress with
  | nil =>
    exact ⟨progress, rfl, rfl, fun row => (or_iff_left Store.not_collapsesAmong_nil).symm⟩
  | cons v vs ih =>
    obtain ⟨next, hnext, hstore, hnotes⟩ := exists_retire_heard h (.inl hhost) v
    have hwf : next.store.WellFormed := by
      rw [hstore]
      exact h.retire _ v
    obtain ⟨last, hlast, hstore', hnotes'⟩ := ih hwf
    refine ⟨last, ?_, ?_, fun row => ?_⟩
    · rw [List.foldlM_cons, hnext]
      exact hlast
    · rw [hstore', hstore]
      rfl
    · rw [hnotes', hnotes, hstore, Store.collapsesAmong_cons_iff, or_assoc]

end Progress

/-- What a call that retires the variables `vs` in order does to the values of all variables. -/
structure Outcome.Forgets (outcome : Outcome) (solver : Solver) (vs : List Var) : Prop where
  /-- Only retired variables lose their values. -/
  kept : ∀ w c, w ∉ vs → solver.store.solved.get? w = some c →
    outcome.solver.store.solved.get? w = some c
  /-- Values are old, or the host has just been told. -/
  old_or_notified : ∀ w c, outcome.solver.store.solved.get? w = some c →
    solver.store.solved.get? w = some c ∨ (w, c) ∈ outcome.notifications
  /-- The host is told of the variables whose right-hand side is flushed to a constant. -/
  notified_iff : ∀ w c, (w, c) ∈ outcome.notifications ↔
    solver.store.CollapsesAmong solver.threshold vs w c
  /-- Where nothing is flushed the host is told nothing. -/
  silent : solver.threshold ≤ 0 → outcome.notifications = []

namespace Solver

variable {solver : Solver}

theorem forgets_outcome (h : solver.store.WellFormed) {progress : Progress}
    (hstore : progress.store = solver.store.retireAll solver.threshold vs)
    (hnotes : ∀ row, row ∈ progress.notifications ↔
      solver.store.CollapsesAmong solver.threshold vs row.1 row.2) :
    (solver.outcome progress).Forgets solver vs := by
  have hwf := h.retireAll solver.threshold vs
  have hsolved : (solver.outcome progress).solver.store.solved =
      (solver.store.retireAll solver.threshold vs).solved := by rw [← hstore]; rfl
  have hnotified : ∀ w c, (w, c) ∈ (solver.outcome progress).notifications ↔
      solver.store.CollapsesAmong solver.threshold vs w c := fun w c => hnotes (w, c)
  refine ⟨fun w c hw hc => ?_, fun w c hc => ?_, hnotified, fun heps => ?_⟩
  · rw [hsolved, Table.get?_eq_some_iff hwf.solved_sorted]
    rw [Table.get?_eq_some_iff h.solved_sorted] at hc
    exact Store.mem_solved_retireAll h hw hc
  · rw [hsolved, Table.get?_eq_some_iff hwf.solved_sorted] at hc
    rw [Table.get?_eq_some_iff h.solved_sorted, hnotified]
    exact Store.mem_solved_of_retireAll h hc
  · refine List.eq_nil_iff_forall_not_mem.mpr fun row hrow => ?_
    exact Store.not_collapsesAmong_of_nonpos h heps ((hnotes row).mp hrow)

theorem exists_retire_forgets (h : solver.store.WellFormed)
    (hempty : solver.host = none → solver.store = {}) (v : Var) :
    ∃ outcome, solver.retire v = .ok outcome ∧ outcome.Forgets solver [v] := by
  have hprogress : solver.progress.store.WellFormed := h
  have hheard : solver.host ≠ none ∨ solver.progress.store.dependents.toList = [] := by
    by_cases hhost : solver.host = none
    · exact .inr (by rw [progress, hempty hhost]; rfl)
    · exact .inl hhost
  obtain ⟨progress, hretire, hstore, hnotes⟩ :=
    Progress.exists_retire_heard hprogress hheard v
  refine ⟨_, by rw [retire, hretire]; rfl, forgets_outcome h hstore fun row => ?_⟩
  rw [hnotes, Store.collapsesAmong_cons_iff, or_iff_left Store.not_collapsesAmong_nil]
  exact or_iff_right List.not_mem_nil

theorem exists_retireReported_forgets (h : solver.store.WellFormed) :
    ∃ outcome, solver.retireReported = .ok outcome ∧
      outcome.Forgets solver (solver.store.mentioned.filter solver.isRetired) := by
  have hprogress : solver.progress.store.WellFormed := h
  by_cases hhost : solver.host = none
  · have hnone : solver.store.mentioned.filter solver.isRetired = [] :=
      List.filter_eq_nil_iff.mpr fun v _ => by simp [Setting.isRetired_of_host_none hhost]
    rw [hnone]
    refine ⟨_, retireReported_of_host_none hhost, forgets_outcome h rfl fun row => ?_⟩
    exact iff_of_false List.not_mem_nil Store.not_collapsesAmong_nil
  · obtain ⟨progress, hretire, hstore, hnotes⟩ := Progress.exists_retireAll_heard hprogress hhost
      (solver.store.mentioned.filter solver.isRetired)
    have hretire : solver.progress.retireReported solver.toSetting = .ok progress := hretire
    refine ⟨_, by rw [retireReported, hretire]; rfl, forgets_outcome h hstore fun row => ?_⟩
    rw [hnotes]
    exact or_iff_right List.not_mem_nil

end Solver

namespace Run

/-- Retiring a variable, or all that the host reports, takes values from the retired variables only
and gives values by flushing only. -/
theorem forgets_of_calls (setting : Setting) {calls : List Call}
    (hcalls : ∀ call ∈ calls, call.WellFormed) :
    ∃ run, (start setting).calls calls = .ok run ∧
      (∀ v, ∃ outcome, run.solver.retire v = .ok outcome ∧ outcome.Forgets run.solver [v]) ∧
      ∃ outcome, run.solver.retireReported = .ok outcome ∧
        outcome.Forgets run.solver (run.solver.store.mentioned.filter run.solver.isRetired) := by
  obtain ⟨run, hrun, h⟩ := exists_calls_recorded setting hcalls
  exact ⟨run, hrun, Solver.exists_retire_forgets h.wellFormed h.store_eq_empty,
    Solver.exists_retireReported_forgets h.wellFormed⟩

theorem forgets_of_calls_reporting :
    ∃ run, (start {}).calls [.attach { nameOf := Var.genericName },
        .addAll [.ofTerms 0 [(1, 1), (3, -1), (4, -1)], .ofTerms (-3) [(5, 1)]],
        .add (.ofTerms 0 [(2, 1), (4, -1 / 100000)]), .report fun v => v == 4 || v == 5] = .ok run ∧
      (∀ v, ∃ outcome, run.solver.retire v = .ok outcome ∧ outcome.Forgets run.solver [v]) ∧
      ∃ outcome, run.solver.retireReported = .ok outcome ∧
        outcome.Forgets run.solver (run.solver.store.mentioned.filter run.solver.isRetired) :=
  forgets_of_calls {} (by simp [Call.WellFormed, LinearForm.WellFormed.ofTerms])

/-- The retirement of `x₄` leaves `x₁/200000` of the right-hand side of `x₂`, which is flushed. -/
theorem solved_by_retirement :
    ∃ run outcome, (start { host := some { nameOf := Var.genericName } }).calls
        [.add (.ofTerms 0 [(1, 1), (3, -1), (4, -1)]), .add (.ofTerms 0 [(2, 1), (4, -1 / 100000)]),
          .add (.ofTerms 0 [(3, 1), (4, -1)])] = .ok run ∧
      run.solver.retire 4 = .ok outcome ∧ outcome.notifications = [(2, 0)] ∧
      run.solver.isSolved 2 = false ∧ outcome.solver.isSolved 2 = true := by
  obtain ⟨run, hrun, hfacts⟩ := exists_of_map_eq_ok
    (x := (start { host := some { nameOf := Var.genericName } }).calls
      [.add (.ofTerms 0 [(1, 1), (3, -1), (4, -1)]), .add (.ofTerms 0 [(2, 1), (4, -1 / 100000)]),
        .add (.ofTerms 0 [(3, 1), (4, -1)])])
    (f := fun run => (run.solver.isSolved 2, (run.solver.retire 4).map fun outcome =>
      (outcome.notifications, outcome.solver.isSolved 2)))
    (b := (false, .ok ([(2, 0)], true))) (by decide +kernel)
  obtain ⟨hbefore, hretire⟩ := Prod.mk.inj hfacts
  obtain ⟨outcome, hretire, hafter⟩ := exists_of_map_eq_ok hretire
  obtain ⟨hnotes, hafter⟩ := Prod.mk.inj hafter
  exact ⟨run, outcome, hrun, hretire, hnotes, hbefore, hafter⟩

end Run

end SolvedForm
