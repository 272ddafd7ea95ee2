import Mathlib.Algebra.Order.Field.Rat
import Mathlib.Tactic.Linarith
import Mathlib.Tactic.Ring
import SolvedForm.LinearForm.Arithmetic
import SolvedForm.Table.Lemmas

/-!
# Operations keep linear forms canonical

Every operation on well-formed forms makes a well-formed form (`WellFormed.add`, `.scale`,
`.withCoeff`, `.flush`, …), and so does every list of terms (`WellFormed.ofTerms`). In a well-formed
form the terms, the coefficients and the mentioned variables say the same thing (`coeff_of_mem`,
`mentions_iff_coeff_ne_zero`).
-/

namespace SolvedForm.LinearForm

variable {p q : LinearForm} {v w : Var} {c k eps : Rat}

section mergeTerms
variable {sign : Rat → Rat} {l r : List (Var × Rat)}

theorem key_of_mem_mergeTerms {t : Var × Rat} (h : t ∈ mergeTerms sign l r) :
    (∃ a, (t.1, a) ∈ l) ∨ ∃ b, (t.1, b) ∈ r := by
  fun_induction mergeTerms sign l r with
  | case1 r =>
    obtain ⟨⟨w, b⟩, hb, rfl⟩ := List.mem_map.mp h
    exact .inr ⟨b, hb⟩
  | case2 l => exact .inl ⟨t.2, h⟩
  | case3 v a l w b r hlt ih =>
    rcases List.mem_cons.mp h with rfl | h
    · exact .inl ⟨a, List.mem_cons_self ..⟩
    · exact (ih h).imp (fun ⟨a, ha⟩ => ⟨a, List.mem_cons_of_mem _ ha⟩) id
  | case4 v a l w b r hlt hgt ih =>
    rcases List.mem_cons.mp h with rfl | h
    · exact .inr ⟨b, List.mem_cons_self ..⟩
    · exact (ih h).imp id fun ⟨b, hb⟩ => ⟨b, List.mem_cons_of_mem _ hb⟩
  | case5 v a l w b r hlt hgt hz ih =>
    exact (ih h).imp (fun ⟨a, ha⟩ => ⟨a, List.mem_cons_of_mem _ ha⟩)
      fun ⟨b, hb⟩ => ⟨b, List.mem_cons_of_mem _ hb⟩
  | case6 v a l w b r hlt hgt hz ih =>
    rcases List.mem_cons.mp h with rfl | h
    · exact .inl ⟨a, List.mem_cons_self ..⟩
    · exact (ih h).imp (fun ⟨a, ha⟩ => ⟨a, List.mem_cons_of_mem _ ha⟩)
        fun ⟨b, hb⟩ => ⟨b, List.mem_cons_of_mem _ hb⟩

theorem coeff_ne_zero_of_mem_mergeTerms (hsign : ∀ b, b ≠ 0 → sign b ≠ 0)
    (hl : ∀ t ∈ l, t.2 ≠ 0) (hr : ∀ t ∈ r, t.2 ≠ 0) : ∀ t ∈ mergeTerms sign l r, t.2 ≠ 0 := by
  fun_induction mergeTerms sign l r with
  | case1 r =>
    intro t ht
    obtain ⟨u, hu, rfl⟩ := List.mem_map.mp ht
    exact hsign _ (hr u hu)
  | case2 l => exact hl
  | case3 v a l w b r hlt ih =>
    obtain ⟨ha, hl⟩ := List.forall_mem_cons.mp hl
    exact List.forall_mem_cons.mpr ⟨ha, ih hl hr⟩
  | case4 v a l w b r hlt hgt ih =>
    obtain ⟨hb, hr⟩ := List.forall_mem_cons.mp hr
    exact List.forall_mem_cons.mpr ⟨hsign b hb, ih hl hr⟩
  | case5 v a l w b r hlt hgt hz ih =>
    exact ih (List.forall_mem_cons.mp hl).2 (List.forall_mem_cons.mp hr).2
  | case6 v a l w b r hlt hgt hz ih =>
    exact List.forall_mem_cons.mpr
      ⟨hz, ih (List.forall_mem_cons.mp hl).2 (List.forall_mem_cons.mp hr).2⟩

theorem lt_of_mem_mergeTerms {t : Var × Rat} (hl : ∀ u ∈ l, v < u.1) (hr : ∀ u ∈ r, v < u.1)
    (h : t ∈ mergeTerms sign l r) : v < t.1 := by
  rcases key_of_mem_mergeTerms h with ⟨a, ha⟩ | ⟨b, hb⟩
  · exact hl (t.1, a) ha
  · exact hr (t.1, b) hb

theorem pairwise_mergeTerms (hl : l.Pairwise fun a b => a.1 < b.1)
    (hr : r.Pairwise fun a b => a.1 < b.1) :
    (mergeTerms sign l r).Pairwise fun a b => a.1 < b.1 := by
  fun_induction mergeTerms sign l r with
  | case1 r => exact List.pairwise_map.mpr hr
  | case2 l => exact hl
  | case3 v a l w b r hlt ih =>
    obtain ⟨hv, hl⟩ := List.pairwise_cons.mp hl
    refine List.pairwise_cons.mpr ⟨fun t ht => lt_of_mem_mergeTerms hv ?_ ht, ih hl hr⟩
    exact List.forall_mem_cons.mpr
      ⟨hlt, fun u hu => Nat.lt_trans hlt ((List.pairwise_cons.mp hr).1 u hu)⟩
  | case4 v a l w b r hlt hgt ih =>
    obtain ⟨hw, hr⟩ := List.pairwise_cons.mp hr
    refine List.pairwise_cons.mpr ⟨fun t ht => lt_of_mem_mergeTerms ?_ hw ht, ih hl hr⟩
    exact List.forall_mem_cons.mpr
      ⟨hgt, fun u hu => Nat.lt_trans hgt ((List.pairwise_cons.mp hl).1 u hu)⟩
  | case5 v a l w b r hlt hgt hz ih =>
    exact ih (List.pairwise_cons.mp hl).2 (List.pairwise_cons.mp hr).2
  | case6 v a l w b r hlt hgt hz ih =>
    obtain rfl : v = w := Nat.le_antisymm (Nat.not_lt.mp hgt) (Nat.not_lt.mp hlt)
    obtain ⟨hv, hl⟩ := List.pairwise_cons.mp hl
    obtain ⟨hw, hr⟩ := List.pairwise_cons.mp hr
    exact List.pairwise_cons.mpr ⟨fun t ht => lt_of_mem_mergeTerms hv hw ht, ih hl hr⟩

end mergeTerms

theorem WellFormed.ofConstant (c : Rat) : (ofConstant c).WellFormed where
  sorted := List.Pairwise.nil
  key_ne_constant := fun _ ht => absurd ht List.not_mem_nil
  coeff_ne_zero := fun _ ht => absurd ht List.not_mem_nil

theorem WellFormed.combine {sign : Rat → Rat} (hsign : ∀ b, b ≠ 0 → sign b ≠ 0)
    (hp : p.WellFormed) (hq : q.WellFormed) : (combine sign p q).WellFormed where
  sorted := pairwise_mergeTerms hp.sorted hq.sorted
  key_ne_constant := fun t ht => by
    rcases key_of_mem_mergeTerms ht with ⟨a, ha⟩ | ⟨b, hb⟩
    · exact hp.key_ne_constant (t.1, a) ha
    · exact hq.key_ne_constant (t.1, b) hb
  coeff_ne_zero := coeff_ne_zero_of_mem_mergeTerms hsign hp.coeff_ne_zero hq.coeff_ne_zero

theorem WellFormed.add (hp : p.WellFormed) (hq : q.WellFormed) : (p + q).WellFormed :=
  hp.combine (fun _ hb => hb) hq

theorem WellFormed.sub (hp : p.WellFormed) (hq : q.WellFormed) : (p - q).WellFormed :=
  hp.combine (fun _ hb => neg_ne_zero.mpr hb) hq

theorem WellFormed.scale (k : Rat) (hp : p.WellFormed) : (p.scale k).WellFormed := by
  unfold LinearForm.scale
  split
  · exact ⟨List.Pairwise.nil, fun _ ht => absurd ht List.not_mem_nil,
      fun _ ht => absurd ht List.not_mem_nil⟩
  · rename_i hk
    refine ⟨hp.sorted.map _, fun t ht => ?_, fun t ht => ?_⟩ <;>
      obtain ⟨u, hu, rfl⟩ := List.mem_map.mp (Table.toList_map _ p.terms ▸ ht)
    · exact hp.key_ne_constant u hu
    · exact mul_ne_zero (hp.coeff_ne_zero u hu) hk

theorem WellFormed.flush (eps : Rat) (hp : p.WellFormed) : (p.flush eps).WellFormed := by
  refine ⟨hp.sorted.filter _, fun t ht => ?_, fun t ht => ?_⟩ <;>
    obtain ⟨ht, -⟩ := List.mem_filter.mp (Table.toList_filter _ p.terms ▸ ht)
  · exact hp.key_ne_constant t ht
  · exact hp.coeff_ne_zero t ht

theorem WellFormed.withCoeff (hv : v ≠ Var.constant) (c : Rat) (hp : p.WellFormed) :
    (p.withCoeff v c).WellFormed := by
  unfold LinearForm.withCoeff
  split
  · refine ⟨hp.sorted.erase v, fun t ht => ?_, fun t ht => ?_⟩ <;>
      obtain ⟨ht, -⟩ := (Table.mem_toList_erase hp.sorted).mp ht
    · exact hp.key_ne_constant t ht
    · exact hp.coeff_ne_zero t ht
  · rename_i hc
    refine ⟨hp.sorted.insert v c, fun t ht => ?_, fun t ht => ?_⟩ <;>
      rcases (Table.mem_toList_insert hp.sorted).mp ht with rfl | ⟨ht, -⟩
    · exact hv
    · exact hp.key_ne_constant t ht
    · exact hc
    · exact hp.coeff_ne_zero t ht

theorem WellFormed.neg (hp : p.WellFormed) : (-p).WellFormed where
  sorted := hp.sorted.map _
  key_ne_constant := fun t ht => by
    obtain ⟨u, hu, rfl⟩ := List.mem_map.mp (Table.toList_map _ p.terms ▸ ht)
    exact hp.key_ne_constant u hu
  coeff_ne_zero := fun t ht => by
    obtain ⟨u, hu, rfl⟩ := List.mem_map.mp (Table.toList_map _ p.terms ▸ ht)
    exact neg_ne_zero.mpr (hp.coeff_ne_zero u hu)

theorem WellFormed.setConstant (c : Rat) (hp : p.WellFormed) : (p.setConstant c).WellFormed :=
  ⟨hp.sorted, hp.key_ne_constant, hp.coeff_ne_zero⟩

theorem WellFormed.invalidate (hp : p.WellFormed) : p.invalidate.WellFormed :=
  ⟨hp.sorted, hp.key_ne_constant, hp.coeff_ne_zero⟩

theorem WellFormed.addTerm (t : Var × Rat) (hp : p.WellFormed) : (p.addTerm t).WellFormed := by
  unfold LinearForm.addTerm
  split
  · exact hp.setConstant _
  · rename_i ht
    exact hp.withCoeff ht _

/-- A sum of terms is canonical, whatever the order of the terms and however often a variable
occurs. -/
theorem WellFormed.ofTerms (c : Rat) (terms : List (Var × Rat)) :
    (ofTerms c terms).WellFormed := by
  have hfold (p : LinearForm) (hp : p.WellFormed) :
      (terms.foldl LinearForm.addTerm p).WellFormed := by
    induction terms generalizing p with
    | nil => exact hp
    | cons t terms ih => exact ih _ (hp.addTerm t)
  exact hfold _ (.ofConstant c)

theorem valid_ofTerms (c : Rat) (terms : List (Var × Rat)) : (ofTerms c terms).valid := by
  have hterm (p : LinearForm) (t : Var × Rat) : (p.addTerm t).valid = p.valid := by
    unfold LinearForm.addTerm
    split <;> rfl
  have hfold (p : LinearForm) (hp : p.valid) : (terms.foldl LinearForm.addTerm p).valid := by
    induction terms generalizing p with
    | nil => exact hp
    | cons t terms ih => exact ih _ ((hterm p t).trans hp)
  exact hfold _ rfl

theorem valid_scale (k : Rat) (p : LinearForm) : (p.scale k).valid = p.valid := by
  unfold scale
  split <;> rfl

/-! ### Terms, coefficients and mentioned variables -/

theorem mentions_iff_exists (hp : p.WellFormed) :
    p.mentions v ↔ ∃ c, (v, c) ∈ p.terms.toList := by
  simp only [mentions, Table.contains, Option.isSome_iff_exists, Table.get?_eq_some_iff hp.sorted]

theorem not_mentions_constant (hp : p.WellFormed) : ¬p.mentions Var.constant := fun h => by
  obtain ⟨c, hc⟩ := (mentions_iff_exists hp).mp h
  exact hp.key_ne_constant _ hc rfl

theorem ne_constant_of_mentions (hp : p.WellFormed) (h : p.mentions v) : v ≠ Var.constant := by
  rintro rfl
  exact not_mentions_constant hp h

theorem mem_support (hp : p.WellFormed) : v ∈ p.support ↔ p.mentions v :=
  (Table.contains_iff hp.sorted).symm

theorem nodup_support (hp : p.WellFormed) : p.support.Nodup :=
  List.pairwise_map.mpr (hp.sorted.imp Nat.ne_of_lt)

theorem coeff_of_mem (hp : p.WellFormed) (h : (v, c) ∈ p.terms.toList) : p.coeff v = c := by
  rw [coeff, if_neg (hp.key_ne_constant _ h), (Table.get?_eq_some_iff hp.sorted).mpr h,
    Option.getD_some]

theorem coeff_of_not_mentions (hv : v ≠ Var.constant) (h : ¬p.mentions v) : p.coeff v = 0 := by
  rw [mentions, Table.contains, Option.not_isSome_iff_eq_none] at h
  rw [coeff, if_neg hv, h, Option.getD_none]

theorem coeff_ne_zero_of_mentions (hp : p.WellFormed) (h : p.mentions v) : p.coeff v ≠ 0 := by
  obtain ⟨c, hc⟩ := (mentions_iff_exists hp).mp h
  rw [coeff_of_mem hp hc]
  exact hp.coeff_ne_zero _ hc

theorem mentions_iff_coeff_ne_zero (hp : p.WellFormed) (hv : v ≠ Var.constant) :
    p.mentions v ↔ p.coeff v ≠ 0 :=
  ⟨coeff_ne_zero_of_mentions hp, fun h => not_not.mp fun hn => h (coeff_of_not_mentions hv hn)⟩

theorem isConstant_iff : p.isConstant ↔ p.terms.toList = [] := by
  simp [isConstant, Table.isEmpty, Table.toList]

theorem not_mentions_of_isConstant (hp : p.WellFormed) (h : p.isConstant) : ¬p.mentions v := by
  rw [mentions_iff_exists hp, isConstant_iff.mp h]
  simp

theorem exists_mentions_of_not_isConstant (hp : p.WellFormed) (h : ¬p.isConstant) :
    ∃ v, p.mentions v := by
  rw [isConstant_iff] at h
  obtain ⟨⟨v, c⟩, hvc⟩ := List.exists_mem_of_ne_nil _ h
  exact ⟨v, (mentions_iff_exists hp).mpr ⟨c, hvc⟩⟩

theorem value?_eq_some_iff : p.value? = some c ↔ p.isConstant ∧ p.constant = c := by
  unfold value?
  split <;> simp_all

theorem value?_eq_none_iff : p.value? = none ↔ ¬p.isConstant := by
  unfold value?
  split <;> simp_all

theorem eq_ofConstant_of_value? (hvalid : p.valid) (h : p.value? = some c) : p = ofConstant c := by
  obtain ⟨hterms, rfl⟩ := value?_eq_some_iff.mp h
  obtain ⟨constant, ⟨entries⟩, valid⟩ := p
  obtain rfl : entries = #[] := Array.toList_eq_nil_iff.mp (isConstant_iff.mp hterms)
  obtain rfl : valid = true := hvalid
  rfl

theorem mentions_of_mentions_flush (hp : p.WellFormed) (h : (p.flush eps).mentions v) :
    p.mentions v := by
  obtain ⟨c, hc⟩ := (mentions_iff_exists (hp.flush eps)).mp h
  exact (mentions_iff_exists hp).mpr
    ⟨c, (List.mem_filter.mp (Table.toList_filter _ p.terms ▸ hc)).1⟩

theorem not_nearZero_zero (a : Rat) : ¬Magnitude.NearZero 0 a :=
  not_lt.mpr Rat.abs_nonneg

theorem flush_zero (p : LinearForm) : p.flush 0 = p := by
  have hterms : (p.terms.filter fun c => !decide (Magnitude.NearZero 0 c)) = p.terms := by
    rw [Table.filter, Array.filter_eq_self.mpr]
    simp [not_nearZero_zero]
  rw [LinearForm.flush, hterms, Magnitude.flush, if_neg (not_nearZero_zero _)]

end SolvedForm.LinearForm
