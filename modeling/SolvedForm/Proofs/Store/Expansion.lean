import Mathlib.Algebra.BigOperators.Group.Finset.Piecewise
import SolvedForm.Proofs.LinearForm.Construction
import SolvedForm.Proofs.Store.Reduction

/-!
# Expansion replaces all known variables at once

`store.Simultaneous p q`: `q` is `p` with the rules of all its known variables put in together. Rules
mention no known variables, so replacements do not get into each other's way: each takes one known
variable away (`Replaces.knownCount`) and none changes what the form expands to
(`Replaces.expands`). Hence the loop of `expand` stops after as many replacements as there are known
variables, and any other order takes as many and ends with the same form (`Store.Expansion`).
-/

namespace SolvedForm.Store

variable {store : Store} {p q r rhs : LinearForm} {v x : Var} {c : Rat} {n steps : Nat}
  {s : Var → Rat}

/-- The right-hand side of `x`; zero if it is not dependent. -/
def rhsOf (store : Store) (x : Var) : LinearForm :=
  (store.dependents.get? x).getD {}

/-- The value of `x`; zero if it is not solved. -/
def valueOf (store : Store) (x : Var) : Rat :=
  (store.solved.get? x).getD 0

/-- The dependent variables that `p` mentions. -/
def dependentsIn (store : Store) (p : LinearForm) : Finset Var :=
  p.support.toFinset.filter fun x => store.dependents.contains x

/-- The solved variables that `p` mentions. -/
def solvedIn (store : Store) (p : LinearForm) : Finset Var :=
  p.support.toFinset.filter fun x => store.solved.contains x

/-- The free variables that `p` mentions, or the right-hand side of one of its dependent variables. -/
def freeIn (store : Store) (p : LinearForm) : Finset Var :=
  (p.support.toFinset ∪ (store.dependentsIn p).biUnion fun x => (store.rhsOf x).support.toFinset)
    |>.filter fun v => store.knows v = false

theorem rhsOf_of_contains (hx : store.dependents.contains x = true) :
    store.dependents.get? x = some (store.rhsOf x) := by
  obtain ⟨rhs, hrhs⟩ := Option.isSome_iff_exists.mp hx
  rw [rhsOf, hrhs, Option.getD_some]

theorem rhsOf_wellFormed (h : store.WellFormed) (x : Var) : (store.rhsOf x).WellFormed := by
  unfold rhsOf
  cases hx : store.dependents.get? x with
  | none => exact .ofConstant 0
  | some rhs => exact h.rhs_wellFormed _ ((Table.get?_eq_some_iff h.dependents_sorted).mp hx)

/-- A completion reads the rule of each known variable off the free ones. -/
theorem complete_of_solved (hx : store.solved.contains x = true) :
    store.complete s x = store.valueOf x := by
  obtain ⟨c, hc⟩ := Option.isSome_iff_exists.mp hx
  simp [complete, rule?, valueOf, hc, LinearForm.eval_ofConstant]

theorem complete_of_dependent (h : store.WellFormed) (hx : store.dependents.contains x = true) :
    store.complete s x = (store.rhsOf x).eval s := by
  have hsolved : store.solved.get? x = none := by
    refine Option.not_isSome_iff_eq_none.mp fun hs => ?_
    exact h.disjoint x ⟨hx, hs⟩
  simp [complete, rule?, hsolved, rhsOf_of_contains hx]

/-- The value of `p` at a completion, one sum for each kind of variable that `p` mentions. -/
theorem eval_complete (h : store.WellFormed) (hp : p.WellFormed) (s : Var → Rat) :
    p.eval (store.complete s) = p.constant +
      ∑ x ∈ store.solvedIn p, p.coeff x * store.valueOf x +
      ∑ x ∈ store.dependentsIn p, p.coeff x * (store.rhsOf x).eval s +
      ∑ x ∈ p.support.toFinset with store.knows x = false, p.coeff x * s x := by
  have hterm (x : Var) : p.coeff x * store.complete s x =
      (if store.solved.contains x then p.coeff x * store.valueOf x else 0) +
      (if store.dependents.contains x then p.coeff x * (store.rhsOf x).eval s else 0) +
      (if store.knows x = false then p.coeff x * s x else 0) := by
    cases hd : store.dependents.contains x with
    | true =>
      have hs : store.solved.contains x = false := by
        rw [← Bool.not_eq_true]
        exact fun hs => h.disjoint x ⟨hd, hs⟩
      simp [knows, hd, hs, complete_of_dependent h hd]
    | false =>
      cases hs : store.solved.contains x with
      | true => simp [knows, hs, complete_of_solved hs]
      | false =>
        have hk : store.knows x = false := by rw [knows, hs, hd, Bool.false_or]
        simp [hk, complete_of_not_knows hk]
  rw [LinearForm.eval_eq_sum hp]
  simp only [hterm, Finset.sum_add_distrib, solvedIn, dependentsIn, Finset.sum_filter]
  ring

/-- `q` is `p` with the rules of its known variables put in together. -/
structure Simultaneous (store : Store) (p q : LinearForm) : Prop where
  free : ∀ v, q.mentions v → store.knows v = false
  coeff : ∀ v, v ≠ Var.constant → store.knows v = false →
    q.coeff v = p.coeff v + ∑ x ∈ store.dependentsIn p, p.coeff x * (store.rhsOf x).coeff v
  constant : q.constant = p.constant +
    ∑ x ∈ store.solvedIn p, p.coeff x * store.valueOf x +
    ∑ x ∈ store.dependentsIn p, p.coeff x * (store.rhsOf x).constant

/-- The coefficients are read off the values: those of `q` are those of `p` at completions. -/
theorem Expands.simultaneous (h : store.WellFormed) (hp : p.WellFormed) (hq : store.Expands p q) :
    store.Simultaneous p q where
  free := hq.free
  coeff := by
    intro v hv hfree
    have hrhs (x : Var) : (store.rhsOf x).coeff v =
        (store.rhsOf x).eval (Function.update (fun _ => 0) v 1) -
          (store.rhsOf x).eval fun _ => 0 := by
      rw [LinearForm.coeff_eq_eval (rhsOf_wellFormed h x), if_neg hv]
    -- of the free variables of `p` only `v` differs between the two completions
    have hself : ∑ x ∈ p.support.toFinset with store.knows x = false,
        p.coeff x * Function.update (fun _ => (0 : Rat)) v 1 x = p.coeff v := by
      simp only [Function.update_apply, mul_ite, mul_one, mul_zero, Finset.sum_ite_eq',
        Finset.mem_filter, List.mem_toFinset, LinearForm.mem_support hp, hfree, and_true]
      split
      · rfl
      · rename_i hn
        exact (LinearForm.coeff_of_not_mentions hv hn).symm
    rw [LinearForm.coeff_eq_eval hq.wellFormed, if_neg hv, hq.eval, hq.eval, eval_complete h hp,
      eval_complete h hp, hself]
    simp only [hrhs, mul_sub, Finset.sum_sub_distrib, mul_zero, Finset.sum_const_zero]
    ring
  constant := by
    have hvalue := hq.eval fun _ => 0
    rw [eval_complete h hp] at hvalue
    simpa [LinearForm.eval_zero] using hvalue

theorem Expands.mem_freeIn (h : store.WellFormed) (hp : p.WellFormed) (hq : store.Expands p q)
    (hv : q.mentions v) : v ∈ store.freeIn p := by
  have hfree := hq.free v hv
  have hne := LinearForm.ne_constant_of_mentions hq.wellFormed hv
  by_contra hn
  simp only [freeIn, Finset.mem_filter, Finset.mem_union, Finset.mem_biUnion, List.mem_toFinset,
    LinearForm.mem_support hp, LinearForm.mem_support (rhsOf_wellFormed h _), hfree, and_true,
    not_or, not_exists, not_and] at hn
  obtain ⟨hnp, hnrhs⟩ := hn
  refine LinearForm.coeff_ne_zero_of_mentions hq.wellFormed hv ?_
  rw [(hq.simultaneous h hp).coeff v hne hfree, LinearForm.coeff_of_not_mentions hne hnp, zero_add]
  refine Finset.sum_eq_zero fun x hx => ?_
  rw [LinearForm.coeff_of_not_mentions hne (hnrhs x hx), mul_zero]

theorem constant_notMem_freeIn (h : store.WellFormed) (hp : p.WellFormed) :
    Var.constant ∉ store.freeIn p := by
  simp only [freeIn, Finset.mem_filter, Finset.mem_union, Finset.mem_biUnion, List.mem_toFinset,
    LinearForm.mem_support hp, LinearForm.mem_support (rhsOf_wellFormed h _)]
  rintro ⟨hm | ⟨x, -, hm⟩, -⟩
  · exact LinearForm.not_mentions_constant hp hm
  · exact LinearForm.not_mentions_constant (rhsOf_wellFormed h x) hm

/-- `n` replacements lead from `p` to `q`, each of a known variable by its rule. -/
inductive Replaces (store : Store) : Nat → LinearForm → LinearForm → Prop
  | refl (p : LinearForm) : Replaces store 0 p p
  | step {n : Nat} {p next q rhs : LinearForm} {v : Var} (mentions : p.mentions v)
      (rule : store.rule? v = some rhs) (substitute : p.substitute v rhs = .ok next)
      (rest : Replaces store n next q) : Replaces store (n + 1) p q

namespace Replaces

/-- Each replacement takes one known variable away. -/
theorem knownCount (h : store.WellFormed) (hr : store.Replaces n p q) (hp : p.WellFormed) :
    n + store.knownCount q = store.knownCount p := by
  induction hr with
  | refl p => exact Nat.zero_add _
  | step mentions rule substitute _ ih =>
    cases substitute.symm.trans (substitute_rule h hp mentions rule)
    have hrest := ih (wellFormed_replace h hp mentions rule)
    have hstep := knownCount_replace h hp mentions rule
    omega

theorem wellFormed (h : store.WellFormed) (hr : store.Replaces n p q) (hp : p.WellFormed) :
    q.WellFormed := by
  induction hr with
  | refl p => exact hp
  | step mentions rule substitute _ ih =>
    cases substitute.symm.trans (substitute_rule h hp mentions rule)
    exact ih (wellFormed_replace h hp mentions rule)

theorem expands (h : store.WellFormed) (hr : store.Replaces n p q) (hp : p.WellFormed)
    (hexp : store.Expands q r) : store.Expands p r := by
  induction hr with
  | refl p => exact hexp
  | step mentions rule substitute _ ih =>
    cases substitute.symm.trans (substitute_rule h hp mentions rule)
    exact (ih (wellFormed_replace h hp mentions rule) hexp).of_replace h hp mentions rule

end Replaces

theorem Expands.eq (hq : store.Expands p q) (hr : store.Expands p r) (hvalid : p.valid) :
    q = r := by
  refine LinearForm.eq_of_eval_eq hq.wellFormed hr.wellFormed ?_ fun s => ?_
  · rw [hq.valid hvalid, hr.valid hvalid]
  · rw [hq.eval, hr.eval]

/-! ### The loop -/

/-- The loop takes the least known variable next, so it is one of the orders. -/
theorem replaces_of_replaceKnown (h : store.WellFormed) (hp : p.WellFormed)
    (hn : store.knownCount p = n) (hq : store.replaceKnown n p = .ok q) :
    store.Replaces n p q := by
  induction n generalizing p with
  | zero =>
    rw [replaceKnown_of_none (firstRule?_eq_none_of_knownCount hp hn)] at hq
    cases hq
    exact .refl _
  | succ n ih =>
    have hpos : store.knownCount p ≠ 0 := by omega
    obtain ⟨v, rhs, hfirst⟩ := exists_firstRule? hp hpos
    obtain ⟨hv, hrule⟩ := mentions_of_firstRule? hp hfirst
    have hstep := knownCount_replace h hp hv hrule
    rw [replaceKnown_succ h hp hfirst] at hq
    exact .step hv hrule (substitute_rule h hp hv hrule)
      (ih (wellFormed_replace h hp hv hrule) (by omega) hq)

theorem replaceKnown_of_lt (h : store.WellFormed) (hp : p.WellFormed)
    (hlt : steps < store.knownCount p) : store.replaceKnown steps p = .error .cyclicStore := by
  induction steps generalizing p with
  | zero =>
    have hpos : store.knownCount p ≠ 0 := by omega
    obtain ⟨v, rhs, hfirst⟩ := exists_firstRule? hp hpos
    simp [replaceKnown, hfirst]
  | succ steps ih =>
    have hpos : store.knownCount p ≠ 0 := by omega
    obtain ⟨v, rhs, hfirst⟩ := exists_firstRule? hp hpos
    obtain ⟨hv, hrule⟩ := mentions_of_firstRule? hp hfirst
    have hstep := knownCount_replace h hp hv hrule
    rw [replaceKnown_succ h hp hfirst]
    exact ih (wellFormed_replace h hp hv hrule) (by omega)

theorem replaceKnown_of_le (h : store.WellFormed) (hp : p.WellFormed)
    (hle : store.knownCount p ≤ steps) : store.replaceKnown steps p = store.expand p := by
  induction steps generalizing p with
  | zero => rw [expand, Nat.le_zero.mp hle]
  | succ steps ih =>
    cases hfirst : store.firstRule? p with
    | none => rw [expand, replaceKnown_of_none hfirst, replaceKnown_of_none hfirst]
    | some rule =>
      obtain ⟨v, rhs⟩ := rule
      obtain ⟨hv, hrule⟩ := mentions_of_firstRule? hp hfirst
      have hstep := knownCount_replace h hp hv hrule
      rw [replaceKnown_succ h hp hfirst, ih (wellFormed_replace h hp hv hrule) (by omega), expand,
        expand, hstep, replaceKnown_succ h hp hfirst]

/-- What comes of replacing the known variables of `p`. -/
structure Expansion (store : Store) (p q : LinearForm) : Prop where
  expand : store.expand p = .ok q
  reduce : ∀ eps, store.reduce eps p = .ok (q.flush eps)
  wellFormed : q.WellFormed
  valid : q.valid
  simultaneous : store.Simultaneous p q
  /-- The loop stops after as many replacements as `p` has known variables. -/
  loop : ∀ steps, store.replaceKnown steps p =
    if store.knownCount p ≤ steps then .ok q else .error .cyclicStore
  replaces : store.Replaces (store.knownCount p) p q
  /-- Whichever known variable is replaced next, there is one less of them, and `q` is left when
  there are none. -/
  any_order : ∀ n r, store.Replaces n p r →
    n + store.knownCount r = store.knownCount p ∧ (store.knownCount r = 0 → r = q)

theorem exists_expansion (h : store.WellFormed) (hp : p.WellFormed) (hvalid : p.valid) :
    ∃ q, store.Expansion p q := by
  obtain ⟨q, hq, hexp⟩ := exists_expand h hp
  refine ⟨q, hq, reduce_of_expand hq, hexp.wellFormed, hexp.valid hvalid, hexp.simultaneous h hp,
    fun steps => ?_, replaces_of_replaceKnown h hp rfl hq,
    fun n r hr => ⟨hr.knownCount h hp, fun hzero => ?_⟩⟩
  · split
    · rename_i hle
      rw [replaceKnown_of_le h hp hle, hq]
    · rename_i hlt
      exact replaceKnown_of_lt h hp (Nat.not_le.mp hlt)
  · have hrwf := hr.wellFormed h hp
    have hdone : store.Expands r r :=
      .of_firstRule?_eq_none hrwf (firstRule?_eq_none_of_knownCount hrwf hzero)
    exact (hr.expands h hp hdone).eq hexp hvalid

end SolvedForm.Store
