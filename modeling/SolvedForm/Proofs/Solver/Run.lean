import SolvedForm.Solver.Log
import SolvedForm.Proofs.Solver.Retirement

/-!
# Runs of a solver

A `Run` is a solver after any calls that began with an empty store, with what it has reported and
which equations it has accepted. The host may answer differently in each call, and at each point of a
call. Calls with canonical forms never misuse anything and keep the store in solved form
(`Call.exists_outcome`), so every run goes through and ends in solved form. If the threshold is zero
all along, a variable can be retired after any run without a loss for the others.
-/

namespace SolvedForm

/-- A step that goes through and keeps an invariant can be repeated. -/
theorem exists_foldlM {α β ε : Type} {f : β → α → Except ε β} (Inv : β → Prop) (Good : α → Prop)
    (step : ∀ b a, Inv b → Good a → ∃ b', f b a = .ok b' ∧ Inv b') (l : List α) (b : β)
    (hl : ∀ a ∈ l, Good a) (hb : Inv b) : ∃ b', l.foldlM f b = .ok b' ∧ Inv b' := by
  induction l generalizing b with
  | nil => exact ⟨b, rfl, hb⟩
  | cons a l ih =>
    obtain ⟨ha, hl⟩ := List.forall_mem_cons.mp hl
    obtain ⟨b₁, hf, hb₁⟩ := step b a hb ha
    obtain ⟨b₂, hl₂, hb₂⟩ := ih b₁ hl hb₁
    refine ⟨b₂, ?_, hb₂⟩
    rw [List.foldlM_cons, hf]
    exact hl₂

namespace Setting

variable {setting : Setting}

theorem isRetired_of_host_none (hhost : setting.host = none) (v : Var) :
    setting.isRetired v = false := by
  rw [isRetired, hhost]

@[simp] theorem threshold_afterReport (report : Option (Var → Bool)) :
    (setting.afterReport report).threshold = setting.threshold := by
  cases report <;> rfl

@[simp] theorem host_afterReport_eq_none {report : Option (Var → Bool)} :
    (setting.afterReport report).host = none ↔ setting.host = none := by
  cases report with
  | none => rfl
  | some isRetired => exact Option.map_eq_none_iff

end Setting

namespace Progress

variable {setting : Setting} {settings : Nat → Setting} {progress : Progress}

theorem exists_retire (setting : Setting) (h : progress.store.WellFormed) (v : Var) :
    ∃ progress', progress.retire setting v = .ok progress' ∧ progress'.store.WellFormed := by
  by_cases hv : v = Var.constant
  · exact ⟨progress, if_pos hv, h⟩
  · exact ⟨_, retire_eq_ok h hv, store_withoutVar setting progress v ▸ h.retire _ v⟩

theorem exists_retireReported (setting : Setting) (h : progress.store.WellFormed) :
    ∃ progress', progress.retireReported setting = .ok progress' ∧ progress'.store.WellFormed :=
  exists_foldlM (fun progress : Progress => progress.store.WellFormed) (fun _ => True)
    (fun _ v h _ => exists_retire setting h v) _ _ (fun _ _ => trivial) h

theorem retireReported_of_none (hnone : ∀ v, setting.isRetired v = false) :
    progress.retireReported setting = .ok progress := by
  have hfilter : progress.store.mentioned.filter setting.isRetired = [] :=
    List.filter_eq_nil_iff.mpr fun v _ => by rw [hnone v]; exact Bool.false_ne_true
  rw [retireReported, hfilter]
  rfl

/-- What every retirement keeps is kept while all retire that the host reports. -/
theorem retireReported_invariant {P : Progress → Prop}
    (step : ∀ {progress progress' : Progress} {v : Var}, P progress → progress.store.WellFormed →
      progress.retire setting v = .ok progress' → P progress')
    (h : P progress) (hwf : progress.store.WellFormed) {progress' : Progress}
    (hretire : progress.retireReported setting = .ok progress') : P progress' := by
  have hstep (next : Progress) (v : Var) (hnext : next.store.WellFormed ∧ P next) (_ : True) :
      ∃ next', next.retire setting v = .ok next' ∧ next'.store.WellFormed ∧ P next' := by
    obtain ⟨hwf, h⟩ := hnext
    obtain ⟨next', hretire, hwf'⟩ := exists_retire setting hwf v
    exact ⟨next', hretire, hwf', step h hwf hretire⟩
  obtain ⟨last, hlast, -, hP⟩ := exists_foldlM _ (fun _ => True) hstep
    (progress.store.mentioned.filter setting.isRetired) progress (fun _ _ => trivial) ⟨hwf, h⟩
  cases hlast.symm.trans hretire
  exact hP

theorem finish_of_retireReported {last : Progress}
    (hlast : progress.retireReported setting = .ok last) :
    progress.finish setting = .ok (last.record (.listing last.store)) := by
  rw [finish, hlast]
  rfl

theorem exists_finish (setting : Setting) (h : progress.store.WellFormed) :
    ∃ progress', progress.finish setting = .ok progress' ∧ progress'.store.WellFormed := by
  obtain ⟨progress', hretire, h'⟩ := exists_retireReported setting h
  exact ⟨_, finish_of_retireReported hretire, h'⟩

theorem finish_of_not_isRetired (hnone : ∀ v, setting.isRetired v = false) (progress : Progress) :
    progress.finish setting = .ok (progress.record (.listing progress.store)) :=
  finish_of_retireReported (retireReported_of_none hnone)

theorem assertAll_cons_of_accepted {p : LinearForm} {ps : List LinearForm} {index : Nat}
    {first : Attempt}
    (hassert : (progress.record (.fromBatch index)).assert (settings index) p = .ok first)
    (hverdict : first.verdict = .ok ()) :
    progress.assertAll settings index (p :: ps) =
      first.toProgress.assertAll settings (index + 1) ps := by
  rw [assertAll, hassert]
  simp only [bind, Except.bind, hverdict]

theorem assertAll_cons_of_rejected {p : LinearForm} {ps : List LinearForm} {index : Nat}
    {first : Attempt} {rejection : Rejection}
    (hassert : (progress.record (.fromBatch index)).assert (settings index) p = .ok first)
    (hverdict : first.verdict = .error rejection) :
    progress.assertAll settings index (p :: ps) = .ok first := by
  rw [assertAll, hassert]
  simp only [bind, Except.bind, hverdict]
  rfl

theorem assertAll_invariant {P : Progress → Prop}
    (step : ∀ {progress : Progress} {index : Nat} {p : LinearForm} {attempt : Attempt},
      P progress → progress.store.WellFormed → p.WellFormed →
      Asserted (settings index) (progress.record (.fromBatch index)) p attempt →
        P attempt.toProgress)
    (h : P progress) (hwf : progress.store.WellFormed) {ps : List LinearForm}
    (hps : ∀ p ∈ ps, p.WellFormed) {index : Nat} {attempt : Attempt}
    (hassert : progress.assertAll settings index ps = .ok attempt) : P attempt.toProgress := by
  induction ps generalizing progress index with
  | nil =>
    cases hassert
    exact h
  | cons p ps ih =>
    obtain ⟨hp, hps⟩ := List.forall_mem_cons.mp hps
    have hrecord : (progress.record (.fromBatch index)).store.WellFormed := hwf
    obtain ⟨first, hfirst, ha⟩ := exists_assert (settings index) hrecord hp
    have hnext : P first.toProgress := step h hwf hp ha
    cases hverdict : first.verdict with
    | error rejection =>
      rw [assertAll_cons_of_rejected hfirst hverdict] at hassert
      cases hassert
      exact hnext
    | ok =>
      rw [assertAll_cons_of_accepted hfirst hverdict] at hassert
      exact ih hnext (ha.wellFormed hrecord hp) hps hassert

/-- The equations of a batch that are accepted: all before the first that is not. -/
def accepted (settings : Nat → Setting) (progress : Progress) (index : Nat) :
    List LinearForm → List LinearForm
  | [] => []
  | p :: ps =>
    match (progress.record (.fromBatch index)).assert (settings index) p with
    | .ok attempt =>
      match attempt.verdict with
      | .ok () => p :: attempt.toProgress.accepted settings (index + 1) ps
      | .error _ => []
    | .error _ => []

theorem exists_assertAll (h : progress.store.WellFormed) (index : Nat) (ps : List LinearForm)
    (hps : ∀ p ∈ ps, p.WellFormed) :
    ∃ attempt, progress.assertAll settings index ps = .ok attempt ∧ attempt.store.WellFormed ∧
      ((∀ i, (settings i).threshold = 0) → ∀ s, attempt.store.Satisfies s ↔
        progress.store.Satisfies s ∧ ∀ q ∈ progress.accepted settings index ps, q.eval s = 0) := by
  induction ps generalizing progress index with
  | nil =>
    exact ⟨progress.accept, rfl, h, fun _ s =>
      ⟨fun hs => ⟨hs, fun _ hq => absurd hq List.not_mem_nil⟩, And.left⟩⟩
  | cons p ps ih =>
    obtain ⟨hp, hps⟩ := List.forall_mem_cons.mp hps
    have hrecord : (progress.record (.fromBatch index)).store.WellFormed := h
    obtain ⟨attempt, hassert, ha⟩ := exists_assert (settings index) hrecord hp
    rw [accepted, hassert]
    dsimp only
    cases hverdict : attempt.verdict with
    | error rejection =>
      -- the batch ends here, and the rejected equation has left the store alone
      have hstore := ha.store_eq_of_error (by rw [hverdict]; exact fun h => by cases h)
      refine ⟨attempt, assertAll_cons_of_rejected hassert hverdict, ha.wellFormed hrecord hp,
        fun _ s => ?_⟩
      rw [hstore]
      exact ⟨fun hs => ⟨hs, fun _ hq => absurd hq List.not_mem_nil⟩, And.left⟩
    | ok =>
      obtain ⟨last, hlast, hwf, hsat⟩ := ih (ha.wellFormed hrecord hp) (index + 1) hps
      refine ⟨last, (assertAll_cons_of_accepted hassert hverdict).trans hlast, hwf,
        fun hexact s => ?_⟩
      rw [hsat hexact, ha.satisfies hrecord hp (hexact index) hverdict, List.forall_mem_cons,
        and_assoc]
      rfl

end Progress

/-! ### Calls -/

/-- What a host can do with a solver. While equations are added it may come to report other
variables, at each equation of a batch and later at the end of the call; what it reports after that
is up to the next `report`. -/
inductive Call where
  | add (p : LinearForm) (later : Option (Var → Bool) := none)
  | addAll (ps : List LinearForm) (reports : Option (Nat → Var → Bool) := none)
    (later : Option (Var → Bool) := none)
  | retire (v : Var)
  | retireReported
  | setThreshold (eps : Rat)
  | attach (host : Host)
  /-- The attached host, if there is one, reports other variables as retired. -/
  | report (isRetired : Var → Bool)

namespace Call

/-- The forms of the call are canonical, as those are that operations on forms make. -/
def WellFormed : Call → Prop
  | add p _ => p.WellFormed
  | addAll ps _ _ => ∀ p ∈ ps, p.WellFormed
  | _ => True

/-- The call does not move the threshold away from zero. -/
def StaysExact : Call → Prop
  | setThreshold eps => eps = 0
  | _ => True

def outcome (solver : Solver) : Call → Except Misuse Outcome
  | add p later => solver.add p (solver.afterReport later)
  | addAll ps reports later =>
    solver.addAll ps (solver.atEquation reports) (solver.afterReport later)
  | retire v => solver.retire v
  | retireReported => solver.retireReported
  | setThreshold eps => .ok { solver := solver.setThreshold eps }
  | attach host => .ok { solver := solver.attach host }
  | report isRetired => .ok { solver := { solver with toSetting := solver.reporting isRetired } }

/-- What a solver is told from outside, after the call. -/
def settingAfter (setting : Setting) : Call → Setting
  | setThreshold eps => { setting with threshold := eps }
  | attach host => { setting with host := some host }
  | report isRetired => setting.reporting isRetired
  | _ => setting

/-- The equations of a call that were accepted, if it ended with `outcome`. -/
def accepted (solver : Solver) (outcome : Outcome) : Call → List LinearForm
  | add p _ =>
    match outcome.verdict with
    | .ok () => [p]
    | .error _ => []
  | addAll ps reports _ => solver.progress.accepted (solver.atEquation reports) 0 ps
  | _ => []

end Call

/-- A solver, with what it has reported and which equations it has accepted since it was empty. -/
structure Run where
  solver : Solver
  events : List Event := []
  accepted : List LinearForm := []

namespace Run

def start (setting : Setting) : Run where
  solver := { toSetting := setting }

def after (run : Run) (call : Call) (outcome : Outcome) : Run where
  solver := outcome.solver
  events := run.events ++ outcome.events
  accepted := run.accepted ++ call.accepted run.solver outcome

def call (run : Run) (call : Call) : Except Misuse Run := do
  return run.after call (← call.outcome run.solver)

def calls (run : Run) (calls : List Call) : Except Misuse Run :=
  calls.foldlM call run

end Run

namespace Solver

variable {solver : Solver} {p : LinearForm} {ps : List LinearForm} {v : Var} {attempt : Attempt}
  {progress : Progress} {settings : Nat → Setting} {later : Setting}

theorem add_of_rejected {rejection : Rejection}
    (hassert : solver.progress.assert solver.toSetting p = .ok attempt)
    (hverdict : attempt.verdict = .error rejection) :
    solver.add p later = .ok (solver.outcome attempt.toProgress attempt.verdict) := by
  rw [add, hassert]
  simp only [bind, Except.bind, hverdict]
  rfl

theorem add_of_accepted (hassert : solver.progress.assert solver.toSetting p = .ok attempt)
    (hverdict : attempt.verdict = .ok ())
    (hfinish : attempt.toProgress.finish later = .ok progress) :
    solver.add p later = .ok (solver.outcome progress) := by
  rw [add, hassert]
  simp only [bind, Except.bind, hverdict, hfinish]
  rfl

theorem addAll_of_finish (hassert : solver.progress.assertAll settings 0 ps = .ok attempt)
    (hfinish : attempt.toProgress.finish later = .ok progress) :
    solver.addAll ps settings later = .ok (solver.outcome progress attempt.verdict) := by
  rw [addAll, hassert]
  simp only [bind, Except.bind, hfinish]
  rfl

theorem add_of_not_isRetired (hnone : ∀ v, later.isRetired v = false)
    (hassert : solver.progress.assert solver.toSetting p = .ok attempt) :
    ∃ outcome, solver.add p later = .ok outcome ∧
      outcome.solver = { solver with store := attempt.store } ∧
      outcome.verdict = attempt.verdict ∧
      outcome.notifications = attempt.events.filterMap Event.notification? := by
  cases hverdict : attempt.verdict with
  | error rejection => exact ⟨_, add_of_rejected hassert hverdict, rfl, hverdict, rfl⟩
  | ok =>
    exact ⟨_, add_of_accepted hassert hverdict (Progress.finish_of_not_isRetired hnone _), rfl, rfl,
      List.filterMap_append.trans (List.append_nil _)⟩

theorem addAll_of_not_isRetired (hnone : ∀ v, later.isRetired v = false)
    (hassert : solver.progress.assertAll settings 0 ps = .ok attempt) :
    ∃ outcome, solver.addAll ps settings later = .ok outcome ∧
      outcome.solver = { solver with store := attempt.store } ∧
      outcome.verdict = attempt.verdict ∧
      outcome.notifications = attempt.events.filterMap Event.notification? :=
  ⟨_, addAll_of_finish hassert (Progress.finish_of_not_isRetired hnone _), rfl, rfl,
    List.filterMap_append.trans (List.append_nil _)⟩

theorem exists_add (h : solver.store.WellFormed) (hp : p.WellFormed) :
    ∃ outcome, solver.add p later = .ok outcome ∧ outcome.solver.toSetting = solver.toSetting ∧
      outcome.solver.store.WellFormed := by
  have hprogress : solver.progress.store.WellFormed := h
  obtain ⟨attempt, hassert, ha⟩ := Progress.exists_assert solver.toSetting hprogress hp
  have hwf := ha.wellFormed hprogress hp
  cases hverdict : attempt.verdict with
  | error rejection => exact ⟨_, add_of_rejected hassert hverdict, rfl, hwf⟩
  | ok =>
    obtain ⟨progress, hfinish, hwf⟩ := Progress.exists_finish later hwf
    exact ⟨_, add_of_accepted hassert hverdict hfinish, rfl, hwf⟩

theorem exists_addAll (h : solver.store.WellFormed) (hps : ∀ p ∈ ps, p.WellFormed) :
    ∃ outcome, solver.addAll ps settings later = .ok outcome ∧
      outcome.solver.toSetting = solver.toSetting ∧ outcome.solver.store.WellFormed := by
  have hprogress : solver.progress.store.WellFormed := h
  obtain ⟨attempt, hassert, hwf, -⟩ := Progress.exists_assertAll hprogress 0 ps hps
  obtain ⟨progress, hfinish, hwf⟩ := Progress.exists_finish later hwf
  exact ⟨_, addAll_of_finish hassert hfinish, rfl, hwf⟩

theorem exists_retire (h : solver.store.WellFormed) (v : Var) :
    ∃ outcome, solver.retire v = .ok outcome ∧ outcome.solver.toSetting = solver.toSetting ∧
      outcome.solver.store.WellFormed := by
  have hprogress : solver.progress.store.WellFormed := h
  obtain ⟨progress, hretire, hwf⟩ := Progress.exists_retire solver.toSetting hprogress v
  rw [retire, hretire]
  exact ⟨_, rfl, rfl, hwf⟩

theorem eq_of_retire (h : solver.store.WellFormed) {outcome : Outcome}
    (hretire : solver.retire v = .ok outcome) :
    outcome.solver = { solver with store := solver.store.retire solver.threshold v } := by
  have hprogress : solver.progress.store.WellFormed := h
  obtain ⟨progress, hprogress', -⟩ := Progress.exists_retire solver.toSetting hprogress v
  rw [retire, hprogress'] at hretire
  cases hretire
  exact congrArg (Solver.mk solver.toSetting) (Progress.store_of_retire hprogress hprogress')

theorem exists_retireReported (h : solver.store.WellFormed) :
    ∃ outcome, solver.retireReported = .ok outcome ∧
      outcome.solver.toSetting = solver.toSetting ∧ outcome.solver.store.WellFormed := by
  have hprogress : solver.progress.store.WellFormed := h
  obtain ⟨progress, hretire, hwf⟩ := Progress.exists_retireReported solver.toSetting hprogress
  rw [retireReported, hretire]
  exact ⟨_, rfl, rfl, hwf⟩

theorem satisfies_retire (h : solver.store.WellFormed) (hexact : solver.threshold = 0)
    (hv : v ≠ Var.constant) :
    ∃ outcome, solver.retire v = .ok outcome ∧ ∀ s, outcome.solver.store.Satisfies s ↔
      ∃ a, solver.store.Satisfies (Function.update s v a) := by
  have hprogress : solver.progress.store.WellFormed := h
  rw [retire, Progress.retire_eq_ok hprogress hv]
  refine ⟨_, rfl, fun s => ?_⟩
  show (solver.progress.withoutVar solver.toSetting v).store.Satisfies s ↔ _
  rw [Progress.store_withoutVar, hexact]
  exact Store.satisfies_retire h v

end Solver

theorem Call.exists_outcome {solver : Solver} (h : solver.store.WellFormed) {call : Call}
    (hcall : call.WellFormed) :
    ∃ outcome, call.outcome solver = .ok outcome ∧ outcome.solver.store.WellFormed ∧
      (call.StaysExact → solver.threshold = 0 → outcome.solver.threshold = 0) := by
  have hkeep {outcome : Outcome} (hsetting : outcome.solver.toSetting = solver.toSetting)
      (hzero : solver.threshold = 0) : outcome.solver.threshold = 0 := by rw [hsetting, hzero]
  cases call with
  | add p =>
    obtain ⟨outcome, hadd, hsetting, hwf⟩ := Solver.exists_add h hcall
    exact ⟨outcome, hadd, hwf, fun _ => hkeep hsetting⟩
  | addAll ps =>
    obtain ⟨outcome, hadd, hsetting, hwf⟩ := Solver.exists_addAll h hcall
    exact ⟨outcome, hadd, hwf, fun _ => hkeep hsetting⟩
  | retire v =>
    obtain ⟨outcome, hretire, hsetting, hwf⟩ := Solver.exists_retire h v
    exact ⟨outcome, hretire, hwf, fun _ => hkeep hsetting⟩
  | retireReported =>
    obtain ⟨outcome, hretire, hsetting, hwf⟩ := Solver.exists_retireReported h
    exact ⟨outcome, hretire, hwf, fun _ => hkeep hsetting⟩
  | setThreshold eps => exact ⟨_, rfl, h, fun hexact _ => hexact⟩
  | attach host => exact ⟨_, rfl, h, fun _ hzero => hzero⟩
  | report isRetired => exact ⟨_, rfl, h, fun _ hzero => hzero⟩

theorem Call.toSetting_outcome {solver : Solver} (h : solver.store.WellFormed) {call : Call}
    (hcall : call.WellFormed) {outcome : Outcome} (houtcome : call.outcome solver = .ok outcome) :
    outcome.solver.toSetting = call.settingAfter solver.toSetting := by
  cases call with
  | add p =>
    obtain ⟨_, hadd, hsetting, -⟩ := Solver.exists_add h hcall
    cases hadd.symm.trans houtcome
    exact hsetting
  | addAll ps =>
    obtain ⟨_, hadd, hsetting, -⟩ := Solver.exists_addAll h hcall
    cases hadd.symm.trans houtcome
    exact hsetting
  | retire v =>
    obtain ⟨_, hretire, hsetting, -⟩ := Solver.exists_retire h v
    cases hretire.symm.trans houtcome
    exact hsetting
  | retireReported =>
    obtain ⟨_, hretire, hsetting, -⟩ := Solver.exists_retireReported h
    cases hretire.symm.trans houtcome
    exact hsetting
  | setThreshold | attach | report =>
    cases houtcome
    rfl

/-! ### Runs go through -/

namespace Run

variable {run : Run}

theorem call_eq_ok {call : Call} {outcome : Outcome} (h : call.outcome run.solver = .ok outcome) :
    run.call call = .ok (run.after call outcome) := by
  rw [Run.call, h]
  rfl

theorem exists_calls (run : Run) (h : run.solver.store.WellFormed) {calls : List Call}
    (hcalls : ∀ call ∈ calls, call.WellFormed) :
    ∃ run', run.calls calls = .ok run' ∧ run'.solver.store.WellFormed := by
  refine exists_foldlM (fun run : Run => run.solver.store.WellFormed) Call.WellFormed
    (fun run call h hcall => ?_) calls run hcalls h
  obtain ⟨outcome, houtcome, hwf, -⟩ := Call.exists_outcome h hcall
  exact ⟨run.after call outcome, call_eq_ok houtcome, hwf⟩

theorem wellFormed_of_calls (setting : Setting) {calls : List Call}
    (hcalls : ∀ call ∈ calls, call.WellFormed) :
    ∃ run, (start setting).calls calls = .ok run ∧ run.solver.store.WellFormed :=
  exists_calls (start setting) Store.wellFormed_empty hcalls

theorem wellFormed_of_calls_changing_threshold :
    ∃ run, (start {}).calls
      [.attach { nameOf := Var.genericName }, .add (.ofTerms 3 [(1, 1), (2, -1)]),
        .setThreshold 1000, .add (.ofTerms 0 [(6, 2), (1, 5)]), .setThreshold (-1),
        .addAll [.ofTerms 0 [(3, 2), (1, 1 / 7)], (LinearForm.ofTerms 1 [(4, 1)]).invalidate],
        .add (.ofTerms 0 [(5, 1), (4, -2), (2, 3)]), .retire 2, .report fun v => v == 5,
        .retireReported] = .ok run ∧ run.solver.store.WellFormed :=
  wellFormed_of_calls {} (by
    simp [Call.WellFormed, LinearForm.WellFormed.ofTerms, LinearForm.WellFormed.invalidate])

theorem toSetting_calls {calls : List Call} (hcalls : ∀ call ∈ calls, call.WellFormed)
    (h : run.solver.store.WellFormed) {run' : Run} (hrun : run.calls calls = .ok run') :
    run'.solver.toSetting = calls.foldl Call.settingAfter run.solver.toSetting := by
  induction calls generalizing run with
  | nil =>
    cases hrun
    rfl
  | cons call calls ih =>
    obtain ⟨hcall, hcalls⟩ := List.forall_mem_cons.mp hcalls
    obtain ⟨outcome, houtcome, hwf, -⟩ := Call.exists_outcome h hcall
    rw [Run.calls, List.foldlM_cons, call_eq_ok houtcome] at hrun
    rw [ih hcalls hwf hrun, List.foldl_cons, ← Call.toSetting_outcome h hcall houtcome]
    rfl

theorem exists_calls_exact {setting : Setting} (hexact : setting.threshold = 0)
    {calls : List Call} (hcalls : ∀ call ∈ calls, call.WellFormed ∧ call.StaysExact) :
    ∃ run, (start setting).calls calls = .ok run ∧ run.solver.store.WellFormed ∧
      run.solver.threshold = 0 := by
  refine exists_foldlM (fun run : Run => run.solver.store.WellFormed ∧ run.solver.threshold = 0)
    (fun call => call.WellFormed ∧ call.StaysExact) (fun run call h hcall => ?_) calls (start setting)
    hcalls ⟨Store.wellFormed_empty, hexact⟩
  obtain ⟨outcome, houtcome, hwf, hzero⟩ := Call.exists_outcome h.1 hcall.1
  exact ⟨run.after call outcome, call_eq_ok houtcome, hwf, hzero hcall.2 h.2⟩

/-- Retiring a variable is existential elimination: the others keep the relations that they have in
the solutions, and get no new ones. -/
theorem satisfies_retire_of_calls {setting : Setting} (hexact : setting.threshold = 0)
    {calls : List Call} (hcalls : ∀ call ∈ calls, call.WellFormed ∧ call.StaysExact) {v : Var}
    (hv : v ≠ Var.constant) :
    ∃ run outcome, (start setting).calls calls = .ok run ∧ run.solver.retire v = .ok outcome ∧
      ∀ s, outcome.solver.store.Satisfies s ↔
        ∃ a, run.solver.store.Satisfies (Function.update s v a) := by
  obtain ⟨run, hrun, hwf, hzero⟩ := exists_calls_exact hexact hcalls
  obtain ⟨outcome, hretire, hsat⟩ := Solver.satisfies_retire hwf hzero hv
  exact ⟨run, outcome, hrun, hretire, hsat⟩

theorem satisfies_retire_of_calls_two_holders :
    ∃ run outcome, (start { host := some { nameOf := Var.genericName }, threshold := 0 }).calls
        [.add (.ofTerms 0 [(1, 5), (2, 1), (3, 1)]), .add (.ofTerms 4 [(4, 7), (2, 3), (3, -2)])] =
          .ok run ∧ run.solver.retire 2 = .ok outcome ∧
      ∀ s, outcome.solver.store.Satisfies s ↔
        ∃ a, run.solver.store.Satisfies (Function.update s 2 a) :=
  satisfies_retire_of_calls rfl
    (by simp [Call.WellFormed, Call.StaysExact, LinearForm.WellFormed.ofTerms]) (by decide)

end Run

end SolvedForm
