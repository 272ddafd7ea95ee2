import SolvedForm.Store.Reduction
import SolvedForm.Proofs.Store.Completion
import SolvedForm.Proofs.LinearForm.Substitution

/-!
# Reduction against a store in solved form

`Expands p q`: `q` mentions free variables only and has the value that `p` has at completions.
`exists_expand`: expansion never misuses anything and ends with such a form. Each step takes one
known variable away and brings none in (`knownCount_replace`), so the steps allowed are enough.
-/

namespace SolvedForm.Store

variable {store : Store} {v w : Var} {p q r : LinearForm} {eps : Rat} {s : Var → Rat}

structure Expands (store : Store) (p q : LinearForm) : Prop where
  wellFormed : q.WellFormed
  valid : p.valid → q.valid
  free : ∀ v, q.mentions v → store.knows v = false
  eval : ∀ s, q.eval s = p.eval (store.complete s)

theorem mentions_of_firstRule? (hp : p.WellFormed) (h : store.firstRule? p = some (v, q)) :
    p.mentions v ∧ store.rule? v = some q := by
  obtain ⟨w, hw, hrule⟩ := List.exists_of_findSome?_eq_some h
  obtain ⟨r, hr, heq⟩ := Option.map_eq_some_iff.mp hrule
  cases heq
  exact ⟨(LinearForm.mem_support hp).mp hw, hr⟩

theorem not_knows_of_firstRule?_eq_none (hp : p.WellFormed) (h : store.firstRule? p = none)
    (hv : p.mentions v) : store.knows v = false := by
  have := List.findSome?_eq_none_iff.mp h v ((LinearForm.mem_support hp).mpr hv)
  exact rule?_eq_none_iff.mp (Option.map_eq_none_iff.mp this)

theorem firstRule?_eq_none_of_knownCount (hp : p.WellFormed) (h : store.knownCount p = 0) :
    store.firstRule? p = none := by
  refine Option.eq_none_iff_forall_ne_some.mpr fun ⟨v, q⟩ hvq => ?_
  obtain ⟨hv, hq⟩ := mentions_of_firstRule? hp hvq
  exact List.countP_eq_zero.mp h v ((LinearForm.mem_support hp).mpr hv) (knows_of_rule? hq)

theorem knownCount_eq_zero (hp : p.WellFormed) (h : store.firstRule? p = none) :
    store.knownCount p = 0 := by
  refine List.countP_eq_zero.mpr fun v hv => ?_
  rw [not_knows_of_firstRule?_eq_none hp h ((LinearForm.mem_support hp).mp hv)]
  exact Bool.false_ne_true

theorem exists_firstRule? (hp : p.WellFormed) (h : store.knownCount p ≠ 0) :
    ∃ v q, store.firstRule? p = some (v, q) := by
  cases hfirst : store.firstRule? p with
  | none => exact absurd (knownCount_eq_zero hp hfirst) h
  | some rule => exact ⟨rule.1, rule.2, rfl⟩

/-- A step takes the replaced variable, and only it, off the known ones. -/
theorem knownCount_replace (h : store.WellFormed) (hp : p.WellFormed) (hv : p.mentions v)
    (hq : store.rule? v = some q) :
    store.knownCount p = store.knownCount (p.replace v q) + 1 := by
  have hv0 := LinearForm.ne_constant_of_mentions hp hv
  have hqwf := wellFormed_of_rule? h hq
  have hr := hp.replace hv0 hqwf
  -- a rule mentions no known variable, so that among these the step only takes `v` away
  have hknown : ∀ w, store.knows w = true →
      ((p.replace v q).mentions w ↔ w ≠ v ∧ p.mentions w) := by
    intro w hw
    refine LinearForm.mentions_replace_iff hp hv0 hqwf fun hm => ?_
    rw [not_knows_of_rule?_mentions h hq hm] at hw
    exact Bool.false_ne_true hw
  have hperm : (p.support.filter store.knows).Perm
      (v :: (p.replace v q).support.filter store.knows) := by
    refine (List.perm_ext_iff_of_nodup ((LinearForm.nodup_support hp).filter _)
      (List.nodup_cons.mpr ⟨fun hmem => ?_, (LinearForm.nodup_support hr).filter _⟩)).mpr fun w => ?_
    · obtain ⟨hmem, hkv⟩ := List.mem_filter.mp hmem
      exact ((hknown v hkv).mp ((LinearForm.mem_support hr).mp hmem)).1 rfl
    · simp only [List.mem_cons, List.mem_filter, LinearForm.mem_support hp,
        LinearForm.mem_support hr]
      by_cases hwv : w = v
      · subst w
        simp [hv, knows_of_rule? hq]
      · by_cases hw : store.knows w = true
        · simp [hwv, hw, hknown w hw]
        · simp [hwv, hw]
  rw [knownCount, knownCount, List.countP_eq_length_filter, List.countP_eq_length_filter,
    hperm.length_eq, List.length_cons]

theorem substitute_rule (h : store.WellFormed) (hp : p.WellFormed) (hv : p.mentions v)
    (hq : store.rule? v = some q) : p.substitute v q = .ok (p.replace v q) := by
  refine LinearForm.substitute_eq_ok (LinearForm.ne_constant_of_mentions hp hv) fun hm => ?_
  have hfree := not_knows_of_rule?_mentions h hq hm
  rw [knows_of_rule? hq] at hfree
  cases hfree

theorem wellFormed_replace (h : store.WellFormed) (hp : p.WellFormed) (hv : p.mentions v)
    (hq : store.rule? v = some q) : (p.replace v q).WellFormed :=
  hp.replace (LinearForm.ne_constant_of_mentions hp hv) (wellFormed_of_rule? h hq)

theorem replaceKnown_of_none (hfirst : store.firstRule? p = none) (steps : Nat) :
    store.replaceKnown steps p = .ok p := by
  cases steps <;> simp [replaceKnown, hfirst]

theorem replaceKnown_succ (h : store.WellFormed) (hp : p.WellFormed)
    (hfirst : store.firstRule? p = some (v, q)) (steps : Nat) :
    store.replaceKnown (steps + 1) p = store.replaceKnown steps (p.replace v q) := by
  obtain ⟨hv, hq⟩ := mentions_of_firstRule? hp hfirst
  rw [replaceKnown, hfirst]
  dsimp only
  rw [substitute_rule h hp hv hq]
  rfl

theorem Expands.of_free (hp : p.WellFormed) (hfree : ∀ v, p.mentions v → store.knows v = false) :
    store.Expands p p :=
  ⟨hp, id, hfree, fun _ => (eval_complete_of_free hp hfree).symm⟩

theorem Expands.of_firstRule?_eq_none (hp : p.WellFormed) (hfirst : store.firstRule? p = none) :
    store.Expands p p :=
  .of_free hp fun _ => not_knows_of_firstRule?_eq_none hp hfirst

theorem Expands.of_replace (h : store.WellFormed) (hp : p.WellFormed) (hv : p.mentions v)
    (hq : store.rule? v = some q) (hr : store.Expands (p.replace v q) r) : store.Expands p r where
  wellFormed := hr.wellFormed
  valid := fun hvalid => hr.valid (LinearForm.valid_replace hvalid (valid_of_rule? h hq))
  free := hr.free
  eval := fun s => by
    have hvalue : store.complete s v = q.eval (store.complete s) := by
      rw [complete_of_rule? hq, eval_complete_of_free (wellFormed_of_rule? h hq)
        fun w => not_knows_of_rule?_mentions h hq]
    rw [hr.eval, LinearForm.eval_replace_of_eq hp (LinearForm.ne_constant_of_mentions hp hv) hvalue]

theorem exists_replaceKnown (h : store.WellFormed) (n : Nat) (p : LinearForm) (hp : p.WellFormed)
    (hn : store.knownCount p = n) : ∃ q, store.replaceKnown n p = .ok q ∧ store.Expands p q := by
  induction n generalizing p with
  | zero =>
    have hfirst := firstRule?_eq_none_of_knownCount hp hn
    exact ⟨p, replaceKnown_of_none hfirst 0, .of_firstRule?_eq_none hp hfirst⟩
  | succ n ih =>
    have hpos : store.knownCount p ≠ 0 := by omega
    obtain ⟨v, q, hfirst⟩ := exists_firstRule? hp hpos
    obtain ⟨hv, hq⟩ := mentions_of_firstRule? hp hfirst
    have hcount := knownCount_replace h hp hv hq
    obtain ⟨r, hr, hexp⟩ := ih (p.replace v q) (wellFormed_replace h hp hv hq) (by omega)
    exact ⟨r, (replaceKnown_succ h hp hfirst n).trans hr, hexp.of_replace h hp hv hq⟩

theorem exists_expand (h : store.WellFormed) (hp : p.WellFormed) :
    ∃ q, store.expand p = .ok q ∧ store.Expands p q :=
  exists_replaceKnown h _ p hp rfl

theorem reduce_of_expand (hq : store.expand p = .ok q) (eps : Rat) :
    store.reduce eps p = .ok (q.flush eps) := by
  rw [reduce, hq]
  rfl

end SolvedForm.Store
