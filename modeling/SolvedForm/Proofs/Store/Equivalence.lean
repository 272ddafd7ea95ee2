import Mathlib.LinearAlgebra.Dimension.Constructions
import SolvedForm.Proofs.Store.Completion

/-!
# Stores with the same solutions

Stores in solved form that have the same solutions solve the same variables with the same values
(`solved_eq_of_satisfies_iff`). Their dependencies may differ, but not how many there are
(`size_dependents_eq_of_satisfies_iff`): the gaps of the known variables, by which an assignment
misses their rules, are a basis of `store.relations`, and that space depends on the solutions only.
-/

namespace SolvedForm

theorem LinearForm.eval_sub_eval (p : LinearForm) (s s' : Var → Rat) :
    p.eval s - p.eval s' = termSum p.terms.toList fun v => s v - s' v := by
  have (terms : List (Var × Rat)) :
      termSum terms s - termSum terms s' = termSum terms fun v => s v - s' v := by
    induction terms with
    | nil => rw [termSum_nil, termSum_nil, termSum_nil, sub_zero]
    | cons t terms ih => rw [termSum_cons, termSum_cons, termSum_cons, ← ih]; ring
  rw [eval_eq, eval_eq, ← this]
  ring

namespace Store

variable {store other : Store} {v w : Var} {s : Var → Rat}

/-- The variables with a rule. -/
def known (store : Store) : Finset Var :=
  (store.solved.keys ++ store.dependents.keys).toFinset

theorem mem_known (h : store.WellFormed) : v ∈ store.known ↔ store.knows v = true := by
  rw [known, List.mem_toFinset, List.mem_append, ← Table.contains_iff h.solved_sorted,
    ← Table.contains_iff h.dependents_sorted, knows, Bool.or_eq_true]

theorem card_known (h : store.WellFormed) :
    store.known.card = store.solved.size + store.dependents.size := by
  have hkeys {α : Type} {t : Table α} (ht : t.Sorted) : t.keys.Nodup :=
    List.pairwise_map.mpr (ht.imp Nat.ne_of_lt)
  have hnodup : (store.solved.keys ++ store.dependents.keys).Nodup := by
    refine List.nodup_append.mpr ⟨hkeys h.solved_sorted, hkeys h.dependents_sorted, ?_⟩
    rintro v hs w hd rfl
    exact h.disjoint v ⟨(Table.contains_iff h.dependents_sorted).mpr hd,
      (Table.contains_iff h.solved_sorted).mpr hs⟩
  rw [known, List.toFinset_card_of_nodup hnodup]
  simp [Table.keys, Table.size, Table.toList]

/-- By how much `s` misses the rule of `v`. -/
def gap (store : Store) (v : Var) (s : Var → Rat) : Rat :=
  s v - store.complete s v

theorem gap_of_not_knows (hv : store.knows v = false) : store.gap v s = 0 := by
  rw [gap, complete_of_not_knows hv, sub_self]

theorem gap_of_satisfies (h : store.WellFormed) (hs : store.Satisfies s) : store.gap v s = 0 := by
  rw [gap, (satisfies_iff_complete_eq h).mp hs, sub_self]

/-- Off a solution in one known variable, only the rule of that variable is missed. -/
theorem gap_update (h : store.WellFormed) (hs : store.Satisfies s) (hv : store.knows v = true)
    (w : Var) (a : Rat) :
    store.gap w (Function.update s v (s v + a)) = if w = v then a else 0 := by
  have hcomplete : store.complete (Function.update s v (s v + a)) = s := by
    refine (complete_congr h fun u hu => Function.update_of_ne ?_ ..).trans
      ((satisfies_iff_complete_eq h).mp hs)
    rintro rfl
    exact Bool.false_ne_true (hu ▸ hv)
  rw [gap, hcomplete]
  split
  · subst w
    rw [Function.update_self]
    ring
  · rename_i hw
    rw [Function.update_of_ne hw, sub_self]

theorem linearIndependent_gap (h : store.WellFormed) :
    LinearIndependent Rat fun v : store.known => store.gap v := by
  have hs := satisfies_complete h fun _ => 0
  rw [linearIndependent_iff']
  intro vs k hsum v hv
  -- the sum is zero as a function, and one step off a solution in `v` it is the factor of `v`
  have hzero := congrFun hsum
    (Function.update (store.complete fun _ => 0) v (store.complete (fun _ => 0) v + 1))
  simp only [Finset.sum_apply, Pi.smul_apply, smul_eq_mul, Pi.zero_apply,
    gap_update h hs ((mem_known h).mp v.2)] at hzero
  rw [Finset.sum_eq_single_of_mem v hv, if_pos rfl, mul_one] at hzero
  · exact hzero
  · intro w _ hwv
    rw [if_neg fun heq => hwv (Subtype.ext heq), mul_zero]

/-! ### The relations of a store -/

/-- The combinations of gaps. They are zero at every solution. -/
def relations (store : Store) : Submodule Rat ((Var → Rat) → Rat) :=
  Submodule.span Rat (Set.range fun v : store.known => store.gap v)

theorem finrank_relations (h : store.WellFormed) :
    Module.finrank Rat store.relations = store.solved.size + store.dependents.size := by
  rw [relations, finrank_span_eq_card (linearIndependent_gap h), Fintype.card_coe, card_known h]

theorem gap_mem_relations (h : store.WellFormed) (v : Var) : store.gap v ∈ store.relations := by
  cases hv : store.knows v with
  | true => exact Submodule.subset_span ⟨⟨v, (mem_known h).mpr hv⟩, rfl⟩
  | false =>
    have hgap : store.gap v = 0 := funext fun _ => gap_of_not_knows hv
    exact hgap ▸ Submodule.zero_mem _

theorem termSum_gap_mem_relations (h : store.WellFormed) (terms : List (Var × Rat)) :
    (fun s => LinearForm.termSum terms fun v => store.gap v s) ∈ store.relations := by
  induction terms with
  | nil => exact Submodule.zero_mem _
  | cons t terms ih =>
    simp only [LinearForm.termSum_cons]
    exact Submodule.add_mem _ (Submodule.smul_mem _ t.2 (gap_mem_relations h t.1)) ih

/-- The gap of a rule that holds in all solutions of `other` is how far `s` is from its completion,
at the variable and at those that the rule mentions. -/
theorem gap_eq_of_imp (h : store.WellFormed) (hother : other.WellFormed)
    (himp : ∀ s, other.Satisfies s → store.Satisfies s) {q : LinearForm}
    (hq : store.rule? v = some q) (s : Var → Rat) :
    store.gap v s =
      other.gap v s - LinearForm.termSum q.terms.toList fun w => other.gap w s := by
  have hzero : store.gap v (other.complete s) = 0 :=
    gap_of_satisfies h (himp _ (satisfies_complete hother s))
  have hterms := q.eval_sub_eval s (other.complete s)
  rw [gap, complete_of_rule? hq] at hzero ⊢
  simp only [gap]
  linarith

theorem relations_le (h : store.WellFormed) (hother : other.WellFormed)
    (himp : ∀ s, other.Satisfies s → store.Satisfies s) : store.relations ≤ other.relations := by
  refine Submodule.span_le.mpr ?_
  rintro _ ⟨v, rfl⟩
  have hv := (mem_known h).mp v.2
  obtain ⟨q, hq⟩ := Option.isSome_iff_exists.mp (knows_eq_isSome_rule? store v ▸ hv)
  show store.gap v ∈ other.relations
  rw [funext (gap_eq_of_imp h hother himp hq)]
  exact Submodule.sub_mem _ (gap_mem_relations hother v) (termSum_gap_mem_relations hother _)

theorem solved_eq_of_satisfies_iff (h : store.WellFormed) (hother : other.WellFormed)
    (hsat : ∀ s, store.Satisfies s ↔ other.Satisfies s) : store.solved = other.solved := by
  refine Table.eq_of_mem_iff h.solved_sorted hother.solved_sorted fun row => ?_
  rw [← Table.get?_eq_some_iff h.solved_sorted, ← Table.get?_eq_some_iff hother.solved_sorted,
    get?_solved_iff h, get?_solved_iff hother]
  simp only [hsat]

theorem size_dependents_eq_of_satisfies_iff (h : store.WellFormed) (hother : other.WellFormed)
    (hsat : ∀ s, store.Satisfies s ↔ other.Satisfies s) :
    store.dependents.size = other.dependents.size := by
  have hrelations : store.relations = other.relations :=
    le_antisymm (relations_le h hother fun s => (hsat s).mpr)
      (relations_le hother h fun s => (hsat s).mp)
  have hcount := finrank_relations h
  rw [hrelations, finrank_relations hother, solved_eq_of_satisfies_iff h hother hsat] at hcount
  exact (Nat.add_left_cancel hcount).symm

end Store

end SolvedForm
