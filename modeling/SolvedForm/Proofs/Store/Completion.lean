import SolvedForm.Store.Basic
import SolvedForm.Proofs.LinearForm.Evaluation

/-!
# The solutions of a store

`complete store s` gives every known variable the value of its rule at `s` and leaves the free
variables alone. For a store in solved form the completions are exactly the solutions
(`satisfies_iff_complete_eq`, `satisfies_complete`), so the free variables can be chosen freely and
determine the rest (`existsUnique_satisfies`), and a variable has the same value in all solutions
only if it is solved (`get?_solved_iff`).
-/

namespace SolvedForm

theorem Table.contains_iff_exists {α : Type} {t : Table α} {v : Var} (ht : t.Sorted) :
    t.contains v ↔ ∃ a, (v, a) ∈ t.toList := by
  simp only [Table.contains, Option.isSome_iff_exists, Table.get?_eq_some_iff ht]

theorem Table.contains_of_mem {α : Type} {t : Table α} {row : Var × α} (ht : t.Sorted)
    (h : row ∈ t.toList) : t.contains row.1 :=
  (Table.contains_iff_exists ht).mpr ⟨row.2, h⟩

namespace Store

variable {store : Store} {v w : Var} {p q rhs : LinearForm} {c : Rat} {s s' : Var → Rat}

theorem wellFormed_empty : ({} : Store).WellFormed where
  dependents_sorted := List.Pairwise.nil
  solved_sorted := List.Pairwise.nil
  disjoint := fun v hv => by
    have hsorted : ({} : Table LinearForm).Sorted := List.Pairwise.nil
    obtain ⟨rhs, hrhs⟩ := (Table.contains_iff_exists hsorted).mp hv.1
    exact List.not_mem_nil hrhs
  not_knows_constant := rfl
  rhs_wellFormed := fun _ hrow => absurd hrow List.not_mem_nil
  rhs_valid := fun _ hrow => absurd hrow List.not_mem_nil
  rhs_not_constant := fun _ hrow => absurd hrow List.not_mem_nil
  rhs_free := fun _ hrow => absurd hrow List.not_mem_nil

theorem satisfies_empty : ({} : Store).Satisfies s :=
  ⟨fun _ hrow => absurd hrow List.not_mem_nil, fun _ hrow => absurd hrow List.not_mem_nil⟩

theorem rule?_of_mem_solved (h : store.WellFormed) (hc : (v, c) ∈ store.solved.toList) :
    store.rule? v = some (LinearForm.ofConstant c) := by
  rw [rule?, (Table.get?_eq_some_iff h.solved_sorted).mpr hc]

theorem get?_solved_of_mem_dependents (h : store.WellFormed)
    (hrhs : (v, rhs) ∈ store.dependents.toList) : store.solved.get? v = none := by
  refine Option.not_isSome_iff_eq_none.mp fun hs => ?_
  exact h.disjoint v ⟨Table.contains_of_mem h.dependents_sorted hrhs, hs⟩

theorem rule?_of_mem_dependents (h : store.WellFormed)
    (hrhs : (v, rhs) ∈ store.dependents.toList) : store.rule? v = some rhs := by
  rw [rule?, get?_solved_of_mem_dependents h hrhs]
  exact (Table.get?_eq_some_iff h.dependents_sorted).mpr hrhs

theorem mem_of_rule? (h : store.WellFormed) (hq : store.rule? v = some q) :
    (∃ c, (v, c) ∈ store.solved.toList ∧ q = LinearForm.ofConstant c) ∨
      (v, q) ∈ store.dependents.toList := by
  unfold rule? at hq
  split at hq
  · rename_i c hc
    cases hq
    exact .inl ⟨c, (Table.get?_eq_some_iff h.solved_sorted).mp hc, rfl⟩
  · exact .inr ((Table.get?_eq_some_iff h.dependents_sorted).mp hq)

theorem knows_eq_isSome_rule? (store : Store) (v : Var) : store.knows v = (store.rule? v).isSome := by
  unfold knows rule? Table.contains
  cases store.solved.get? v <;> rfl

theorem rule?_eq_none_iff : store.rule? v = none ↔ store.knows v = false := by
  rw [knows_eq_isSome_rule?, Option.isSome_eq_false_iff, Option.isNone_iff_eq_none]

theorem knows_of_rule? (hq : store.rule? v = some q) : store.knows v = true := by
  rw [knows_eq_isSome_rule?, hq]
  rfl

theorem ne_constant_of_knows (h : store.WellFormed) (hv : store.knows v = true) :
    v ≠ Var.constant := by
  rintro rfl
  exact Bool.false_ne_true (h.not_knows_constant ▸ hv)

theorem wellFormed_of_rule? (h : store.WellFormed) (hq : store.rule? v = some q) :
    q.WellFormed := by
  rcases mem_of_rule? h hq with ⟨c, -, rfl⟩ | hq
  · exact .ofConstant c
  · exact h.rhs_wellFormed _ hq

theorem valid_of_rule? (h : store.WellFormed) (hq : store.rule? v = some q) : q.valid := by
  rcases mem_of_rule? h hq with ⟨c, -, rfl⟩ | hq
  · rfl
  · exact h.rhs_valid _ hq

theorem not_knows_of_rule?_mentions (h : store.WellFormed) (hq : store.rule? v = some q)
    (hw : q.mentions w) : store.knows w = false := by
  rcases mem_of_rule? h hq with ⟨c, -, rfl⟩ | hq
  · exact absurd hw (LinearForm.not_mentions_of_isConstant (.ofConstant c) rfl)
  · exact h.rhs_free _ hq w hw

theorem satisfies_iff (h : store.WellFormed) :
    store.Satisfies s ↔ ∀ v q, store.rule? v = some q → s v = q.eval s := by
  constructor
  · intro hs v q hq
    rcases mem_of_rule? h hq with ⟨c, hc, rfl⟩ | hq
    · exact hs.2 _ hc
    · exact hs.1 _ hq
  · intro hs
    exact ⟨fun row hrow => hs _ _ (rule?_of_mem_dependents h hrow),
      fun row hrow => hs _ _ (rule?_of_mem_solved h hrow)⟩

def complete (store : Store) (s : Var → Rat) (v : Var) : Rat :=
  match store.rule? v with
  | some q => q.eval s
  | none => s v

theorem complete_of_rule? (hq : store.rule? v = some q) : store.complete s v = q.eval s := by
  rw [complete, hq]

theorem complete_of_not_knows (hv : store.knows v = false) : store.complete s v = s v := by
  rw [complete, rule?_eq_none_iff.mpr hv]

theorem eval_complete_of_free (hp : p.WellFormed) (hfree : ∀ v, p.mentions v → store.knows v = false) :
    p.eval (store.complete s) = p.eval s :=
  LinearForm.eval_congr hp fun v hv => complete_of_not_knows (hfree v hv)

theorem complete_congr (h : store.WellFormed) (hs : ∀ v, store.knows v = false → s v = s' v) :
    store.complete s = store.complete s' := by
  funext v
  cases hq : store.rule? v with
  | some q =>
    rw [complete_of_rule? hq, complete_of_rule? hq]
    exact LinearForm.eval_congr (wellFormed_of_rule? h hq) fun w hw =>
      hs w (not_knows_of_rule?_mentions h hq hw)
  | none =>
    have hv := rule?_eq_none_iff.mp hq
    rw [complete_of_not_knows hv, complete_of_not_knows hv, hs v hv]

theorem satisfies_iff_complete_eq (h : store.WellFormed) :
    store.Satisfies s ↔ store.complete s = s := by
  rw [satisfies_iff h]
  constructor
  · intro hs
    funext v
    cases hq : store.rule? v with
    | some q => rw [complete_of_rule? hq, hs v q hq]
    | none => exact complete_of_not_knows (rule?_eq_none_iff.mp hq)
  · intro hs v q hq
    rw [← complete_of_rule? hq, hs]

theorem satisfies_complete (h : store.WellFormed) (s : Var → Rat) :
    store.Satisfies (store.complete s) := by
  rw [satisfies_iff_complete_eq h]
  exact complete_congr h fun v hv => complete_of_not_knows hv

/-- The free variables can have any values, and these determine the others. -/
theorem existsUnique_satisfies (h : store.WellFormed) (f : Var → Rat) :
    ∃! s, (∀ v, store.knows v = false → s v = f v) ∧ store.Satisfies s := by
  refine ⟨store.complete f, ⟨fun v hv => complete_of_not_knows hv, satisfies_complete h f⟩, ?_⟩
  rintro s ⟨hfree, hs⟩
  rw [← (satisfies_iff_complete_eq h).mp hs]
  exact complete_congr h hfree

theorem exists_satisfies_of_not_knows (h : store.WellFormed) (hv : store.knows v = false) (a : Rat) :
    ∃ s, store.Satisfies s ∧ s v = a :=
  ⟨store.complete fun _ => a, satisfies_complete h _, complete_of_not_knows hv⟩

/-- The value of a dependent variable varies with any variable of its right-hand side. -/
theorem exists_satisfies_of_mem_dependents (h : store.WellFormed)
    (hrhs : (v, rhs) ∈ store.dependents.toList) (a : Rat) : ∃ s, store.Satisfies s ∧ s v ≠ a := by
  have hwf := h.rhs_wellFormed _ hrhs
  obtain ⟨w, hw⟩ := LinearForm.exists_mentions_of_not_isConstant hwf (h.rhs_not_constant _ hrhs)
  have hslope := LinearForm.coeff_ne_zero_of_mentions hwf hw
  have hvalue : ∀ s, store.complete s v = rhs.eval s := fun s =>
    complete_of_rule? (rule?_of_mem_dependents h hrhs)
  by_contra hn
  simp only [not_exists, not_and, not_not] at hn
  -- a step in `w` moves the value of `v` by the coefficient of `w`
  have h0 := hn _ (satisfies_complete h fun _ => 0)
  have h1 := hn _ (satisfies_complete h (Function.update (fun _ => 0) w 1))
  rw [hvalue] at h0 h1
  rw [LinearForm.eval_update hwf (LinearForm.ne_constant_of_mentions hwf hw), h0] at h1
  exact hslope (by linarith)

/-- Exactly the solved variables have one value in all solutions. -/
theorem get?_solved_iff (h : store.WellFormed) :
    store.solved.get? v = some c ↔ ∀ s, store.Satisfies s → s v = c := by
  constructor
  · intro hc s hs
    exact hs.2 _ ((Table.get?_eq_some_iff h.solved_sorted).mp hc)
  · intro hall
    cases hq : store.rule? v with
    | none =>
      obtain ⟨s, hs, hv⟩ := exists_satisfies_of_not_knows h (rule?_eq_none_iff.mp hq) (c + 1)
      have := hall s hs
      linarith
    | some q =>
      rcases mem_of_rule? h hq with ⟨d, hd, -⟩ | hrhs
      · rw [Table.get?_eq_some_iff h.solved_sorted]
        rw [← hall _ (satisfies_complete h fun _ => 0), complete_of_rule? (rule?_of_mem_solved h hd)]
        exact hd
      · obtain ⟨s, hs, hv⟩ := exists_satisfies_of_mem_dependents h hrhs c
        exact absurd (hall s hs) hv

end Store

end SolvedForm
