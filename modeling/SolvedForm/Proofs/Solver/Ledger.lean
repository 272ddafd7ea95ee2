import SolvedForm.Proofs.Solver.Run

/-!
# The ledger of solutions

`Ledger start events solved`: read in order, the notifications and retirements among `events` turn
the solutions `start` into `solved`, and no variable is notified while it is solved. Every part of a
call keeps such a ledger (`Progress.Booked`), as long as there is a host to hear of the solutions.
-/

namespace SolvedForm

namespace Event

/-- The event belongs to a change of which variables are solved. -/
def isEntry : Event → Bool
  | solution _ _ => true
  | notified _ _ => true
  | retired _ => true
  | _ => false

def notifies (v : Var) : Event → Bool
  | notified w _ => w == v
  | _ => false

def retires (v : Var) : Event → Bool
  | retired w => w == v
  | _ => false

theorem not_notifies_of_not_isEntry {event : Event} (h : event.isEntry = false) (v : Var) :
    event.notifies v = false := by
  cases event with
  | notified => cases h
  | _ => rfl

theorem not_retires_of_not_isEntry {event : Event} (h : event.isEntry = false) (v : Var) :
    event.retires v = false := by
  cases event with
  | retired => cases h
  | _ => rfl

end Event

inductive Ledger (start : Table Rat) : List Event → Table Rat → Prop
  | nil : Ledger start [] start
  | notified {events : List Event} {solved : Table Rat} {v : Var} (c : Rat)
      (h : Ledger start events solved) (hv : ¬solved.contains v) :
      Ledger start (events ++ [.solution v c, .notified v c]) (solved.insert v c)
  | retired {events : List Event} {solved : Table Rat} (v : Var)
      (h : Ledger start events solved) : Ledger start (events ++ [.retired v]) (solved.erase v)
  | other {events : List Event} {solved : Table Rat} {event : Event}
      (h : Ledger start events solved) (he : event.isEntry = false) :
      Ledger start (events ++ [event]) solved

namespace Ledger

variable {start middle solved : Table Rat} {events later : List Event} {v : Var} {c : Rat}

theorem append (h : Ledger start events middle) (h' : Ledger middle later solved) :
    Ledger start (events ++ later) solved := by
  induction h' with
  | nil => rwa [List.append_nil]
  | notified c _ hv ih =>
    rw [← List.append_assoc]
    exact ih.notified c hv
  | retired v _ ih =>
    rw [← List.append_assoc]
    exact ih.retired v
  | other _ he ih =>
    rw [← List.append_assoc]
    exact ih.other he

theorem others (h : Ledger start events solved) (hlater : ∀ event ∈ later, event.isEntry = false) :
    Ledger start (events ++ later) solved := by
  induction later generalizing events with
  | nil => rwa [List.append_nil]
  | cons event later ih =>
    obtain ⟨he, hlater⟩ := List.forall_mem_cons.mp hlater
    rw [List.append_cons]
    exact ih (h.other he) hlater

theorem sorted (hstart : start.Sorted) (h : Ledger start events solved) : solved.Sorted := by
  induction h with
  | nil => exact hstart
  | notified c _ _ ih => exact ih.insert _ c
  | retired v _ ih => exact ih.erase v
  | other _ _ ih => exact ih

/-- Each notification of `v` makes it solved, and only a retirement of `v` undoes that. -/
theorem countP_notifies_le (hstart : start.Sorted) (h : Ledger start events solved) (v : Var) :
    events.countP (Event.notifies v) + (start.contains v).toNat ≤
      events.countP (Event.retires v) + (solved.contains v).toNat := by
  induction h with
  | nil => exact Nat.le_refl _
  | @notified events solved w c h hw ih =>
    have hcontains : (solved.insert w c).contains v =
        if v = w then true else solved.contains v := by
      rw [Table.contains, Table.get?_insert (h.sorted hstart)]
      split <;> rfl
    rw [List.countP_append, List.countP_append, hcontains]
    by_cases hvw : v = w
    -- `v` was not solved, so the new notification is paid for by its becoming so
    · subst w
      rw [Bool.not_eq_true] at hw
      simp [Event.notifies, Event.retires, hw] at ih ⊢
      omega
    · simpa [Event.notifies, Event.retires, hvw, Ne.symm hvw] using ih
  | @retired events solved w h ih =>
    have hcontains : (solved.erase w).contains v = if v = w then false else solved.contains v := by
      rw [Table.contains, Table.get?_erase (h.sorted hstart)]
      split <;> rfl
    rw [List.countP_append, List.countP_append, hcontains]
    by_cases hvw : v = w
    · subst w
      have := Bool.toNat_le (solved.contains v)
      simp [Event.notifies, Event.retires]
      omega
    · simpa [Event.notifies, Event.retires, hvw, Ne.symm hvw] using ih
  | @other events solved event h he ih =>
    have hnotifies := Event.not_notifies_of_not_isEntry he v
    have hretires := Event.not_retires_of_not_isEntry he v
    rw [List.countP_append, List.countP_append]
    simpa [hnotifies, hretires] using ih

end Ledger

/-! ### Parts of a call -/

namespace Progress

variable {setting : Setting} {settings : Nat → Setting} {progress : Progress} {start : Table Rat}
  {v : Var} {p : LinearForm}

def Booked (start : Table Rat) (progress : Progress) : Prop :=
  Ledger start progress.events progress.store.solved

namespace Booked

theorem record (h : progress.Booked start) {event : Event} (he : event.isEntry = false) :
    (progress.record event).Booked start :=
  Ledger.other h he

theorem learn (h : progress.Booked start) (hhost : setting.host ≠ none) {row : Var × Rat}
    (hnew : ¬progress.store.solved.contains row.1) : (progress.learn setting row).Booked start := by
  show Ledger start (progress.events ++ .solution row.1 row.2 :: _) _
  rw [if_pos (Option.isSome_iff_ne_none.mpr hhost)]
  exact Ledger.notified row.2 h hnew

theorem foldl_learn (h : progress.Booked start) (hhost : setting.host ≠ none)
    (hsorted : progress.store.solved.Sorted) {rows : List (Var × Rat)}
    (hrows : rows.Pairwise fun a b => a.1 < b.1)
    (hnew : ∀ row ∈ rows, ¬progress.store.solved.contains row.1) :
    (rows.foldl (Progress.learn setting) progress).Booked start := by
  induction rows generalizing progress with
  | nil => exact h
  | cons row rows ih =>
    obtain ⟨hlt, hrows⟩ := List.pairwise_cons.mp hrows
    obtain ⟨hrow, hnew⟩ := List.forall_mem_cons.mp hnew
    refine ih (h.learn hhost hrow) (hsorted.insert row.1 row.2) hrows fun other hother => ?_
    show ¬(progress.store.solved.insert row.1 row.2).contains other.1
    rw [Table.contains, Table.get?_insert hsorted, if_neg (Nat.ne_of_gt (hlt other hother))]
    exact hnew other hother

theorem afterSweep (h : progress.Booked start) (hhost : setting.host ≠ none)
    (hsorted : progress.store.solved.Sorted) {sweep : Sweep}
    (hcollapsed : sweep.collapsed.Pairwise fun a b => a.1 < b.1)
    (hnew : ∀ row ∈ sweep.collapsed, ¬progress.store.solved.contains row.1) :
    (progress.afterSweep setting sweep).Booked start := by
  unfold Progress.afterSweep
  refine foldl_learn ?_ hhost ?_ hcollapsed ?_
  · refine Ledger.others h fun event he => ?_
    obtain ⟨row, -, rfl⟩ := List.mem_map.mp he
    rfl
  · exact hsorted
  · exact hnew

theorem inline (h : progress.Booked start) (hhost : setting.host ≠ none)
    (hbut : progress.store.WellFormedBut v) (value : LinearForm) :
    (progress.inline setting v value).Booked start :=
  h.afterSweep hhost hbut.solved_sorted hbut.pairwise_collapsed
    fun _ => hbut.not_solved_of_mem_collapsed

theorem withRule (h : progress.Booked start) (hhost : setting.host ≠ none)
    (hwf : progress.store.WellFormed) (hv : v ≠ Var.constant)
    (hfree : progress.store.knows v = false) (rhs : LinearForm) :
    (progress.withRule setting v rhs).Booked start := by
  unfold Progress.withRule
  split
  · rename_i c _
    have hnew : ¬progress.store.solved.contains v := by
      rw [Store.knows, Bool.or_eq_false_iff] at hfree
      simp [hfree.1]
    have hbut : (progress.learn setting (v, c)).store.WellFormedBut v :=
      hwf.setSolved hv hfree c
    exact (h.learn hhost hnew).inline hhost hbut _
  · have hbut : (progress.record (.dependency v rhs)).store.WellFormedBut v :=
      hwf.but (Store.contains_dependents_of_not_knows hfree)
    exact (h.record rfl).inline hhost hbut rhs

/-- An assertion books what it solves: without a host it solves nothing. -/
theorem assert (h : progress.Booked start) (hwf : progress.store.WellFormed) (hp : p.WellFormed)
    {attempt : Attempt} (hassert : progress.assert setting p = .ok attempt) :
    attempt.Booked start := by
  obtain ⟨attempt', hassert', ha⟩ := exists_assert setting hwf hp
  cases hassert.symm.trans hassert'
  cases ha with
  | noHost | invalid => exact h
  | redundant | inconsistent => exact Booked.record (Booked.record h rfl) rfl
  | solved host valid expand pivot =>
    obtain ⟨-, hfree, hadmits⟩ := Store.admits_of_pivot? hwf hp valid expand pivot
    exact withRule (Booked.record h rfl) host hwf hadmits.ne_constant hfree _

theorem assertAll (h : progress.Booked start) (hwf : progress.store.WellFormed) {index : Nat}
    {ps : List LinearForm} (hps : ∀ p ∈ ps, p.WellFormed) {attempt : Attempt}
    (hassert : progress.assertAll settings index ps = .ok attempt) : attempt.Booked start :=
  assertAll_invariant (P := Progress.Booked start)
    (fun h hwf hp ha => (h.record rfl).assert hwf hp (ha.assert_eq hwf hp)) h hwf hps hassert

theorem drop (h : progress.Booked start) (v : Var) :
    (((progress.record (.retired v)).dropSolved v).dropDependent v).Booked start := by
  have hretired : Ledger start (progress.events ++ [.retired v]) (progress.store.solved.erase v) :=
    Ledger.retired v h
  have hsolved : ((progress.record (.retired v)).dropSolved v).Booked start := by
    unfold dropSolved
    split
    · exact hretired.other rfl
    · rename_i hv
      have hv : ¬progress.store.solved.contains v := hv
      rwa [Table.erase_of_not_contains hv] at hretired
  unfold dropDependent
  split
  · exact Ledger.other hsolved rfl
  · exact hsolved

theorem withoutHolder (h : progress.Booked start)
    (hheard : setting.host ≠ none ∨ progress.store.dependents.toList = [])
    (hwf : progress.store.WellFormed) (hfree : progress.store.knows v = false) :
    (progress.withoutHolder setting v).Booked start := by
  unfold Progress.withoutHolder
  split
  · exact h
  · rename_i y rhs hholder
    have hhost : setting.host ≠ none := hheard.resolve_right fun hnil =>
      List.not_mem_nil (hnil ▸ (Store.mem_of_holder? hholder).1)
    obtain ⟨hbut, -⟩ := Store.Admits.invert hwf hfree hholder
    have hreleased : (progress.withStore (progress.store.release y)).Booked start := h
    exact (hreleased.record rfl).inline hhost hbut _

theorem withoutVar (h : progress.Booked start)
    (hheard : setting.host ≠ none ∨ progress.store.dependents.toList = [])
    (hwf : progress.store.WellFormed) (v : Var) : (progress.withoutVar setting v).Booked start := by
  refine (h.drop v).withoutHolder (hheard.imp id fun hnil => ?_) ?_ ?_ <;> rw [store_drop]
  · rw [Store.forget, Table.toList_erase hwf.dependents_sorted, hnil, List.filter_nil]
  · exact hwf.forget v
  · exact Store.not_knows_forget hwf v

theorem retire (h : progress.Booked start)
    (hheard : setting.host ≠ none ∨ progress.store.dependents.toList = [])
    (hwf : progress.store.WellFormed) {progress' : Progress}
    (hretire : progress.retire setting v = .ok progress') : progress'.Booked start := by
  rcases eq_of_retire hwf hretire with ⟨-, rfl⟩ | ⟨-, rfl⟩
  · exact h
  · exact h.withoutVar hheard hwf v

theorem retireReported (h : progress.Booked start) (hwf : progress.store.WellFormed)
    {progress' : Progress} (hretire : progress.retireReported setting = .ok progress') :
    progress'.Booked start := by
  cases hhost : setting.host with
  | none =>
    cases (retireReported_of_none (Setting.isRetired_of_host_none hhost)).symm.trans hretire
    exact h
  | some host =>
    have hheard : setting.host ≠ none := fun heq => by cases hhost.symm.trans heq
    exact retireReported_invariant (P := Booked start)
      (fun h hwf hretire => h.retire (.inl hheard) hwf hretire) h hwf hretire

theorem finish (h : progress.Booked start) (hwf : progress.store.WellFormed)
    {progress' : Progress} (hfinish : progress.finish setting = .ok progress') :
    progress'.Booked start := by
  obtain ⟨last, hlast, -⟩ := exists_retireReported setting hwf
  cases hfinish.symm.trans (finish_of_retireReported hlast)
  exact (h.retireReported hwf hlast).record rfl

end Booked

end Progress

end SolvedForm
