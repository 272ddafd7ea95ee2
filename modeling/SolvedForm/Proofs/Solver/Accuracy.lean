import SolvedForm.Proofs.Solver.Findings
import SolvedForm.Proofs.Solver.Residues
import SolvedForm.Proofs.Store.Expansion

/-!
# How far off a verdict can be

All solutions give a form the value of its expansion, so its reduction is off by what the flush
takes: no more than the threshold for the constant, and that times the size of each free variable
that comes up (`Store.tolerance`, `Store.Expands.abs_sub_le`). Hence an equation that is dropped as
redundant holds up to the tolerance at every solution, and one that is rejected is off by its residue
up to the tolerance (`Solver.Accurate`). This is so in every state that calls lead to
(`Run.accurate_of_calls`), as is what comes before the flush (`Run.expansion_of_calls`).
-/

namespace SolvedForm

variable {store : Store} {p q : LinearForm} {r eps : Rat} {s : Var → Rat}

namespace Store

/-- The threshold, and as much again for each unit of the free variables that reducing `p` brings
up. -/
def tolerance (store : Store) (eps : Rat) (p : LinearForm) (s : Var → Rat) : Rat :=
  eps * (1 + ∑ v ∈ store.freeIn p, |s v|)

theorem Expands.abs_sub_le (h : store.WellFormed) (hp : p.WellFormed) (hq : store.Expands p q)
    (heps : 0 ≤ eps) (hs : store.Satisfies s) :
    |p.eval s - (q.flush eps).eval s| ≤ store.tolerance eps p s := by
  rw [← hq.eval_of_satisfies h hs]
  exact LinearForm.abs_eval_sub_eval_flush_le hq.wellFormed heps (fun v hv => hq.mem_freeIn h hp hv)
    (constant_notMem_freeIn h hp) s

theorem Expands.abs_sub_value_le (h : store.WellFormed) (hp : p.WellFormed)
    (hq : store.Expands p q) (heps : 0 ≤ eps) (hvalue : (q.flush eps).value? = some r)
    (hs : store.Satisfies s) : |p.eval s - r| ≤ store.tolerance eps p s := by
  obtain ⟨hconst, rfl⟩ := LinearForm.value?_eq_some_iff.mp hvalue
  have hle := hq.abs_sub_le h hp heps hs
  rwa [LinearForm.eval_of_isConstant hconst] at hle

end Store

namespace Solver

variable {solver : Solver}

/-- What reducing `p` and asserting `0 = p` have to do with the value of `p` at the solutions. -/
structure Accurate (solver : Solver) (p : LinearForm) : Prop where
  reduce : ∃ q, solver.store.reduce solver.threshold p = .ok q ∧
    ∀ s, solver.store.Satisfies s →
      |p.eval s - q.eval s| ≤ solver.store.tolerance solver.threshold p s
  /-- An equation that is dropped as redundant nearly holds at all solutions. -/
  redundant : ∃ outcome, solver.add p = .ok outcome ∧ (.redundant ∈ outcome.events →
    ∀ s, solver.store.Satisfies s → |p.eval s| ≤ solver.store.tolerance solver.threshold p s)
  /-- One that is rejected is off by about the residue at all of them. -/
  inconsistent : ∃ outcome, solver.add p = .ok outcome ∧
    ∀ r, outcome.verdict = .error (.inconsistent r) → r ≠ 0 ∧ solver.threshold ≤ |r| ∧
      ∀ s, solver.store.Satisfies s →
        |p.eval s - r| ≤ solver.store.tolerance solver.threshold p s

theorem accurate (h : solver.store.WellFormed) (heps : 0 ≤ solver.threshold) (hp : p.WellFormed)
    (hvalid : p.valid) : solver.Accurate p := by
  obtain ⟨q, hq⟩ := Store.exists_expansion h hp hvalid
  have hexp := Store.Expands.of_expand h hp hq.expand
  have hexpand : solver.progress.store.expand p = .ok q := hq.expand
  obtain ⟨attempt, outcome, ha, hadd, hverdict, hfindings⟩ := exists_add_findings h hp
  refine ⟨⟨_, hq.reduce _, fun s hs => hexp.abs_sub_le h hp heps hs⟩, ⟨outcome, hadd, ?_⟩,
    ⟨outcome, hadd, ?_⟩⟩
  · intro hmem s hs
    have hmem : Event.redundant ∈ attempt.findings := by
      rw [← hfindings]
      exact List.mem_filter.mpr ⟨hmem, rfl⟩
    have hzero := ha.value?_of_redundant hexpand rfl hmem
    have hle := hexp.abs_sub_value_le h hp heps hzero hs
    rwa [sub_zero] at hle
  · intro r herror
    rw [hverdict] at herror
    obtain ⟨hne, hr⟩ := ha.value?_of_inconsistent hexpand herror
    refine ⟨hne, ?_, fun s hs => hexp.abs_sub_value_le h hp heps hr hs⟩
    obtain ⟨-, rfl⟩ := LinearForm.value?_eq_some_iff.mp hr
    rw [← Magnitude.abs_eq]
    exact (Magnitude.significant_flush solver.threshold q.constant).resolve_left hne

end Solver

namespace Run

/-- In any store that calls lead to, replacing known variables comes to an end, and to the same one
in any order: all their rules put in together. -/
theorem expansion_of_calls (setting : Setting) {calls : List Call}
    (hcalls : ∀ call ∈ calls, call.WellFormed) :
    ∃ run, (start setting).calls calls = .ok run ∧
      ∀ p, p.WellFormed → p.valid → ∃ q, run.solver.store.Expansion p q := by
  obtain ⟨run, hrun, h⟩ := exists_calls (start setting) Store.wellFormed_empty hcalls
  exact ⟨run, hrun, fun p hp hvalid => Store.exists_expansion h hp hvalid⟩

theorem expansion_of_calls_cancelling :
    ∃ run, (start {}).calls [.attach { nameOf := Var.genericName },
        .add (.ofTerms 3 [(1, 1), (2, -1)]), .add (.ofTerms (-5) [(4, 1)]),
        .add (.ofTerms 0 [(2, -2), (3, -1), (5, 1)])] = .ok run ∧
      run.solver.store.knownCount (.ofTerms 0 [(1, 1), (2, -1), (3, 1), (4, 1)]) = 3 ∧
      run.solver.store.Expansion (.ofTerms 0 [(1, 1), (2, -1), (3, 1), (4, 1)])
        (.ofTerms 2 [(3, 1)]) := by
  refine (expansion_of_calls {} ?_).imp fun run h => ⟨h.1, ?_⟩
  · simp [Call.WellFormed, LinearForm.WellFormed.ofTerms]
  obtain ⟨hrun, hexpansion⟩ := h
  obtain ⟨q, hq⟩ := hexpansion (.ofTerms 0 [(1, 1), (2, -1), (3, 1), (4, 1)]) (.ofTerms ..) rfl
  have hresults := apply_eq_of_map_eq_ok (b := (3, .ok (.ofTerms 2 [(3, 1)])))
    (f := fun run : Run =>
      (run.solver.store.knownCount (.ofTerms 0 [(1, 1), (2, -1), (3, 1), (4, 1)]),
        run.solver.store.expand (.ofTerms 0 [(1, 1), (2, -1), (3, 1), (4, 1)])))
    hrun (by decide +kernel)
  rw [hq.expand] at hresults
  obtain ⟨hcount, hresult⟩ := Prod.mk.inj hresults
  cases hresult
  exact ⟨hcount, hq⟩

/-- Whatever was flushed before, at the solutions of the store a reduction and a verdict are off by no
more than the tolerance. -/
theorem accurate_of_calls (setting : Setting) {calls : List Call}
    (hcalls : ∀ call ∈ calls, call.WellFormed) :
    ∃ run, (start setting).calls calls = .ok run ∧ (0 ≤ run.solver.threshold →
      ∀ p, p.WellFormed → p.valid → run.solver.Accurate p) := by
  obtain ⟨run, hrun, h⟩ := exists_calls (start setting) Store.wellFormed_empty hcalls
  exact ⟨run, hrun, fun heps p hp hvalid => Solver.accurate h heps hp hvalid⟩

/-- The rule of `x₁` was flushed, and so is all that is left of an equation that does not follow
from it, while one that is further off is rejected. -/
theorem accurate_of_calls_dropping :
    ∃ run, (start { host := some { nameOf := Var.genericName } }).calls [.setThreshold (1 / 10),
        .add (.ofTerms 0 [(1, 1), (2, -1), (3, 1 / 20)])] = .ok run ∧
      run.solver.threshold = 1 / 10 ∧
      (run.solver.add (.ofTerms (1 / 20) [(1, 1), (2, -1), (4, 1 / 20)])).map
        (fun outcome => decide (.redundant ∈ outcome.events)) = .ok true ∧
      run.solver.Accurate (.ofTerms (1 / 20) [(1, 1), (2, -1), (4, 1 / 20)]) ∧
      (run.solver.add (.ofTerms 3 [(1, 1), (2, -1), (4, 1 / 20)])).map Outcome.verdict =
        .ok (.error (.inconsistent 3)) ∧
      run.solver.Accurate (.ofTerms 3 [(1, 1), (2, -1), (4, 1 / 20)]) := by
  refine (accurate_of_calls { host := some { nameOf := Var.genericName } } ?_).imp
    fun run h => ⟨h.1, ?_⟩
  · simp [Call.WellFormed, LinearForm.WellFormed.ofTerms]
  obtain ⟨hrun, haccurate⟩ := h
  have hresults := apply_eq_of_map_eq_ok (b := (1 / 10, .ok true, .ok (.error (.inconsistent 3))))
    (f := fun run : Run => (run.solver.threshold,
      (run.solver.add (.ofTerms (1 / 20) [(1, 1), (2, -1), (4, 1 / 20)])).map
        fun outcome => decide (.redundant ∈ outcome.events),
      (run.solver.add (.ofTerms 3 [(1, 1), (2, -1), (4, 1 / 20)])).map Outcome.verdict))
    hrun (by decide +kernel)
  obtain ⟨hthreshold, hresults⟩ := Prod.mk.inj hresults
  obtain ⟨hdropped, hrejected⟩ := Prod.mk.inj hresults
  have heps : 0 ≤ run.solver.threshold := by
    rw [hthreshold]
    norm_num
  exact ⟨hthreshold, hdropped, haccurate heps _ (.ofTerms ..) rfl, hrejected,
    haccurate heps _ (.ofTerms ..) rfl⟩

end Run

end SolvedForm
