import Mathlib.Data.List.Chain
import SolvedForm.Proofs.Solver.Notification

/-!
# The solutions are what the host has heard

An event concerns a variable if it tells the host its value or retires it. Of a whole run the last
event that concerns a variable decides whether it is solved (`Ledger.get?_eq_some_iff`), between two
notifications of it there is a retirement (`Ledger.retired_mem_between`), and every solution is
announced as soon as it is found (`Ledger.announced`). So the host can rebuild the solutions from
what it was told (`Run.replays_of_calls`).
-/

namespace SolvedForm

variable {solved : Table Rat} {events later : List Event} {v w : Var} {c d : Rat}

namespace Event

/-- The event decides whether `v` is solved. -/
def concerns (v : Var) (event : Event) : Bool :=
  event.notifies v || event.retires v

@[simp] theorem concerns_notified : (notified w c).concerns v = (w == v) := by
  simp [concerns, notifies, retires]

@[simp] theorem concerns_retired : (retired w).concerns v = (w == v) := by
  simp [concerns, notifies, retires]

@[simp] theorem concerns_solution : (solution w c).concerns v = false :=
  rfl

theorem not_concerns_of_not_isEntry {event : Event} (h : event.isEntry = false) (v : Var) :
    event.concerns v = false := by
  rw [concerns, not_notifies_of_not_isEntry h, not_retires_of_not_isEntry h, Bool.or_false]

theorem eq_retired_of_retires {event : Event} (h : event.retires v) : event = .retired v := by
  cases event with
  | retired w => rw [eq_of_beq h]
  | _ => cases h

/-- Every solution among the events is followed at once by its notification. -/
def Announced (events : List Event) : Prop :=
  ∀ earlier v c later, events = earlier ++ .solution v c :: later →
    later.head? = some (.notified v c)

theorem Announced.append (h : Announced events) (h' : Announced later) :
    Announced (events ++ later) := by
  intro earlier v c rest hsplit
  rcases List.append_eq_append_iff.mp hsplit with ⟨between, rfl, hlater⟩ | ⟨between, rfl, hrest⟩
  · exact h' between v c rest hlater
  · cases between with
    | nil => exact h' [] v c rest hrest.symm
    | cons event between =>
      obtain ⟨rfl, rfl⟩ := List.cons.inj hrest
      show (between ++ later).head? = _
      rw [List.head?_append, h earlier v c between rfl]
      rfl

theorem announced_singleton {event : Event} (h : ∀ v c, event ≠ .solution v c) :
    Announced [event] := by
  intro earlier v c later heq
  have hmem : .solution v c ∈ [event] := by
    rw [heq]
    simp
  exact absurd (List.mem_singleton.mp hmem).symm (h v c)

theorem announced_learnt (v : Var) (c : Rat) : Announced [.solution v c, .notified v c] := by
  intro earlier w d later heq
  rcases earlier with _ | ⟨first, _ | ⟨second, earlier⟩⟩
  · cases heq
    rfl
  · cases heq
  · simp at heq

end Event

namespace Ledger

/-- The last event that concerns a variable decides whether it is solved. -/
theorem get?_eq_some_iff (h : Ledger {} events solved) (v : Var) (c : Rat) :
    solved.get? v = some c ↔
      (events.filter (Event.concerns v)).getLast? = some (.notified v c) := by
  have hstart : ({} : Table Rat).Sorted := List.Pairwise.nil
  induction h with
  | nil => exact iff_of_false (by rw [Table.get?_eq_some_iff hstart]; exact List.not_mem_nil) nofun
  | @notified events solved w d h hw ih =>
    rw [Table.get?_insert (h.sorted hstart)]
    by_cases hvw : v = w
    · simp [hvw]
    · simp [hvw, Ne.symm hvw, ih]
  | @retired events solved w h ih =>
    rw [Table.get?_erase (h.sorted hstart)]
    by_cases hvw : v = w
    · simp [hvw]
    · simp [hvw, Ne.symm hvw, ih]
  | other h he ih => simp [Event.not_concerns_of_not_isEntry he, ih]

/-- Of the events that concern a variable, each notification is followed by a retirement. -/
theorem isChain_filter_concerns (h : Ledger {} events solved) (v : Var) :
    (events.filter (Event.concerns v)).IsChain fun a b => a.notifies v → b.retires v := by
  induction h with
  | nil => exact .nil
  | @notified events solved w d h hw ih =>
    by_cases hvw : w = v
    · subst w
      -- were the last event on `v` a notification, `v` would be solved already
      have hlast : ∀ e ∈ (events.filter (Event.concerns v)).getLast?, ¬e.notifies v := by
        intro e he hnotifies
        cases e with
        | notified u a =>
          cases eq_of_beq hnotifies
          exact hw (Option.isSome_iff_exists.mpr ⟨a, (h.get?_eq_some_iff v a).mpr he⟩)
        | _ => cases hnotifies
      have hfilter : (events ++ [Event.solution v d, .notified v d]).filter (Event.concerns v) =
          events.filter (Event.concerns v) ++ [.notified v d] := by simp
      rw [hfilter]
      refine ih.append (.singleton _) fun a ha b _ hnotifies => ?_
      exact absurd hnotifies (hlast a ha)
    · simpa [hvw] using ih
  | @retired events solved w h ih =>
    by_cases hvw : w = v
    · subst w
      have hfilter : (events ++ [Event.retired v]).filter (Event.concerns v) =
          events.filter (Event.concerns v) ++ [.retired v] := by simp
      rw [hfilter]
      refine ih.append (.singleton _) fun a _ b hb _ => ?_
      cases hb
      exact beq_self_eq_true v
    · simpa [hvw] using ih
  | other h he ih => simpa [Event.not_concerns_of_not_isEntry he] using ih

/-- A variable that is notified twice has retired in between. -/
theorem retired_mem_between (h : Ledger {} events solved) {earlier between later : List Event}
    (hevents : events = earlier ++ .notified v c :: (between ++ .notified v d :: later)) :
    .retired v ∈ between := by
  have hchain := h.isChain_filter_concerns v
  simp only [hevents, List.filter_append, Event.concerns_notified, beq_self_eq_true,
    List.filter_cons_of_pos] at hchain
  cases hbetween : between.filter (Event.concerns v) with
  | nil =>
    rw [hbetween, List.nil_append, List.isChain_append_cons_cons] at hchain
    cases hchain.2.1 (beq_self_eq_true v)
  | cons next rest =>
    rw [hbetween, List.cons_append, List.isChain_append_cons_cons] at hchain
    have hnext : next ∈ between.filter (Event.concerns v) := by
      rw [hbetween]
      exact List.mem_cons_self ..
    rw [← Event.eq_retired_of_retires (hchain.2.1 (beq_self_eq_true v))]
    exact (List.mem_filter.mp hnext).1

theorem announced {start : Table Rat} (h : Ledger start events solved) :
    Event.Announced events := by
  induction h with
  | nil => exact fun earlier v c later heq => by simp at heq
  | @notified _ _ w d _ _ ih => exact ih.append (Event.announced_learnt w d)
  | retired _ _ ih => exact ih.append (Event.announced_singleton nofun)
  | @other _ _ event _ he ih =>
    refine ih.append (Event.announced_singleton fun v c heq => ?_)
    rw [heq] at he
    cases he

end Ledger

/-- The solutions of the run can be read off what the host was told. -/
structure Run.Replays (run : Run) : Prop where
  /-- A variable is solved if the last event that concerns it is its notification. -/
  solved_iff : ∀ v c, run.solver.store.solved.get? v = some c ↔
    (run.events.filter (Event.concerns v)).getLast? = some (.notified v c)
  /-- A variable is not notified again unless it has retired. -/
  retired_between : ∀ v c d earlier between later,
    run.events = earlier ++ .notified v c :: (between ++ .notified v d :: later) →
      .retired v ∈ between
  /-- The host is told of every solution as it is found. -/
  announced : ∀ v c earlier later, run.events = earlier ++ .solution v c :: later →
    later.head? = some (.notified v c)

namespace Run

theorem Recorded.replays {run : Run} (h : run.Recorded) : run.Replays where
  solved_iff := h.ledger.get?_eq_some_iff
  retired_between := fun _ _ _ _ _ _ => h.ledger.retired_mem_between
  announced := fun v c earlier later => h.ledger.announced earlier v c later

/-- Whatever a host does, and even if it is attached late or replaced by another, the solutions are
the ones it was told of since the variable last retired. -/
theorem replays_of_calls (setting : Setting) {calls : List Call}
    (hcalls : ∀ call ∈ calls, call.WellFormed) :
    ∃ run, (start setting).calls calls = .ok run ∧ run.Replays := by
  obtain ⟨run, hrun, h⟩ := exists_calls_recorded setting hcalls
  exact ⟨run, hrun, h.replays⟩

/-- A host comes late and is replaced; `x₁` retires by a call, is solved again and retires by a
report. As it has heard of `x₄` in the last batch, the host reports `x₇`, so that `x₆` becomes the
pivot, and in the end `x₄` itself. -/
theorem replays_of_calls_replacing :
    ∃ run, (start {}).calls [.add (.ofTerms (-2) [(1, 1)]), .retire 1,
        .attach { nameOf := Var.genericName },
        .addAll [.ofTerms (-2) [(1, 1)], .ofTerms 0 [(2, 1), (3, -2)]], .retire 1,
        .attach { nameOf := fun _ => "x", isRetired := fun v => v == 4 },
        .add (.ofTerms 1 [(1, 1), (3, 1)]), .setThreshold 0, .add (.ofTerms 3 [(3, 1)]),
        .report fun v => v == 1, .retireReported,
        .addAll [.ofTerms 0 [(2, 1), (4, -2)], .ofTerms 0 [(5, 1), (6, -3), (7, -4)]]
          (some fun index v => index == 1 && v == 7) (some fun v => v == 4)] = .ok run ∧
      run.Replays :=
  replays_of_calls {} (by simp [Call.WellFormed, LinearForm.WellFormed.ofTerms])

end Run

end SolvedForm
