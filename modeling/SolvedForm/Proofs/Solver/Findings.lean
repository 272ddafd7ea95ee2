import SolvedForm.Proofs.Solver.Run

/-!
# What a call says of its equation

An assertion reports that its equation is redundant, or by how much it is off. Neither propagating a
rule nor retiring variables reports anything like it (`Progress.findings_withRule`,
`Progress.findings_withoutVar`), so it can be read off the events of the whole call how the equation
came out (`Solver.exists_add_findings`).
-/

namespace SolvedForm

variable {setting : Setting} {p q : LinearForm} {v : Var} {r : Rat} {event : Event}

/-- The event says how an equation came out. -/
def Event.isFinding : Event → Bool
  | redundant => true
  | offBy _ => true
  | _ => false

namespace Progress

variable {progress : Progress} {attempt : Attempt}

def findings (progress : Progress) : List Event :=
  progress.events.filter Event.isFinding

theorem findings_record (he : event.isFinding = false) :
    (progress.record event).findings = progress.findings := by
  simp [findings, record, he]

theorem findings_record_of_isFinding (he : event.isFinding = true) :
    (progress.record event).findings = progress.findings ++ [event] := by
  simp [findings, record, he]

theorem findings_learn (setting : Setting) (progress : Progress) (row : Var × Rat) :
    (progress.learn setting row).findings = progress.findings := by
  unfold findings learn
  split <;> simp [Event.isFinding]

theorem findings_foldl_learn (rows : List (Var × Rat)) :
    (rows.foldl (learn setting) progress).findings = progress.findings := by
  induction rows generalizing progress with
  | nil => rfl
  | cons row rows ih => rw [List.foldl_cons, ih, findings_learn]

theorem findings_inline (setting : Setting) (progress : Progress) (v : Var) (value : LinearForm) :
    (progress.inline setting v value).findings = progress.findings := by
  have hchanged {f : Var × LinearForm → Event} (hf : ∀ row, (f row).isFinding = false)
      (rows : List (Var × LinearForm)) : (rows.map f).filter Event.isFinding = [] := by
    refine List.filter_eq_nil_iff.mpr fun event hevent => ?_
    obtain ⟨row, -, rfl⟩ := List.mem_map.mp hevent
    simp [hf row]
  rw [inline, afterSweep, findings_foldl_learn, findings, List.filter_append, hchanged,
    List.append_nil]
  · rfl
  · intro row
    rfl

theorem findings_withRule (setting : Setting) (progress : Progress) (v : Var) (rhs : LinearForm) :
    (progress.withRule setting v rhs).findings = progress.findings := by
  unfold withRule
  split
  · rw [findings_inline, findings_learn]
  · show (Progress.inline ..).findings = _
    rw [findings_inline, findings_record rfl]

theorem findings_drop (progress : Progress) (v : Var) :
    (((progress.record (.retired v)).dropSolved v).dropDependent v).findings =
      progress.findings := by
  have hsilent (b : Bool) {event : Event} (he : event.isFinding = false) :
      (if b then [event] else []).filter Event.isFinding = [] := by
    cases b <;> simp [he]
  rw [findings, events_dropDependent, events_dropSolved, List.filter_append, List.filter_append,
    hsilent _ rfl, hsilent _ rfl, List.append_nil, List.append_nil]
  exact findings_record rfl

theorem findings_withoutVar (setting : Setting) (progress : Progress) (v : Var) :
    (progress.withoutVar setting v).findings = progress.findings := by
  rw [← findings_drop progress v]
  unfold withoutVar withoutHolder
  split
  · rfl
  · rw [findings_inline, findings_record rfl]
    rfl

theorem findings_retire (h : progress.store.WellFormed) {progress' : Progress}
    (hretire : progress.retire setting v = .ok progress') :
    progress'.findings = progress.findings := by
  rcases eq_of_retire h hretire with ⟨-, rfl⟩ | ⟨-, rfl⟩
  · rfl
  · exact findings_withoutVar ..

theorem findings_retireReported (h : progress.store.WellFormed) {progress' : Progress}
    (hretire : progress.retireReported setting = .ok progress') :
    progress'.findings = progress.findings := by
  refine retireReported_invariant (P := fun next => next.findings = progress.findings) ?_ rfl h
    hretire
  intro next next' v hnext hwf hretire
  rw [findings_retire hwf hretire, hnext]

theorem findings_finish (h : progress.store.WellFormed) {progress' : Progress}
    (hfinish : progress.finish setting = .ok progress') : progress'.findings = progress.findings := by
  obtain ⟨last, hlast, -⟩ := exists_retireReported setting h
  cases hfinish.symm.trans (finish_of_retireReported hlast)
  exact (findings_record rfl).trans (findings_retireReported h hlast)

namespace Asserted

theorem value?_of_redundant (ha : Asserted setting progress p attempt)
    (hq : progress.store.expand p = .ok q) (hfresh : progress.findings = [])
    (hmem : .redundant ∈ attempt.findings) : (q.flush setting.threshold).value? = some 0 := by
  cases ha with
  | redundant host valid expand value =>
    cases hq.symm.trans expand
    exact value
  | noHost | invalid =>
    change _ ∈ progress.findings at hmem
    rw [hfresh] at hmem
    cases hmem
  | inconsistent host valid expand ne_zero value =>
    change _ ∈ ((progress.record _).record _).findings at hmem
    rw [findings_record_of_isFinding rfl, findings_record rfl, hfresh] at hmem
    simp at hmem
  | solved host valid expand pivot =>
    change _ ∈ ((progress.record _).withRule ..).findings at hmem
    rw [findings_withRule, findings_record rfl, hfresh] at hmem
    cases hmem

theorem value?_of_inconsistent (ha : Asserted setting progress p attempt)
    (hq : progress.store.expand p = .ok q) (herror : attempt.verdict = .error (.inconsistent r)) :
    r ≠ 0 ∧ (q.flush setting.threshold).value? = some r := by
  cases ha with
  | inconsistent host valid expand ne_zero value =>
    cases herror
    cases hq.symm.trans expand
    exact ⟨ne_zero, value⟩
  | noHost | invalid | redundant | solved => cases herror

end Asserted

end Progress

namespace Solver

variable {solver : Solver}

theorem exists_add_findings (h : solver.store.WellFormed) (hp : p.WellFormed) :
    ∃ attempt outcome, Progress.Asserted solver.toSetting solver.progress p attempt ∧
      solver.add p = .ok outcome ∧ outcome.verdict = attempt.verdict ∧
      outcome.events.filter Event.isFinding = attempt.findings := by
  have hprogress : solver.progress.store.WellFormed := h
  obtain ⟨attempt, hassert, ha⟩ := Progress.exists_assert solver.toSetting hprogress hp
  cases hverdict : attempt.verdict with
  | error rejection =>
    exact ⟨attempt, _, ha, add_of_rejected hassert hverdict, rfl, rfl⟩
  | ok =>
    have hwf := ha.wellFormed hprogress hp
    obtain ⟨last, hfinish, -⟩ := Progress.exists_finish solver.toSetting hwf
    exact ⟨attempt, _, ha, add_of_accepted hassert hverdict hfinish, hverdict.symm,
      Progress.findings_finish hwf hfinish⟩

end Solver

end SolvedForm
