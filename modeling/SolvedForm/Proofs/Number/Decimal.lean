import Mathlib.Algebra.Order.Field.Rat
import Mathlib.Data.Nat.Prime.Basic
import Mathlib.Tactic.Linarith
import SolvedForm.Proofs.Number.Factor
import SolvedForm.Proofs.Number.Notation

/-!
# Decimal text of rationals

`places?` answers exactly if the decimal expansion of a rational ends, and then with enough places for
all of it (`places?_cases`). Rounding to any number of places is off by at most half a unit of the
last one (`two_mul_abs_roundedUnits_sub_le`). So an expansion that ends within the places is not
changed (`roundedUnits_div_of_dvd`), and any other is never halfway between two multiples
(`terminates_of_tie`). `text_denotes` puts this together with what `read?` makes of the text.
-/

namespace SolvedForm.Decimal

variable {a b : Rat} {den i j k places : Nat}

/-- The decimal expansion of `a` ends: its denominator has no prime factors but those of ten. -/
def Terminates (a : Rat) : Prop :=
  ∀ p, p.Prime → p ∣ a.den → p = 2 ∨ p = 5

theorem terminates_of_dvd (h : a.den ∣ 2 ^ i * 5 ^ j) : Terminates a := by
  intro p hp hdvd
  rcases hp.dvd_mul.mp (hdvd.trans h) with htwo | hfive
  · exact .inl ((Nat.prime_dvd_prime_iff_eq hp Nat.prime_two).mp (hp.dvd_of_dvd_pow htwo))
  · exact .inr ((Nat.prime_dvd_prime_iff_eq hp Nat.prime_five).mp (hp.dvd_of_dvd_pow hfive))

theorem Terminates.abs (h : Terminates a) : Terminates a.abs := by
  have hden : a.abs.den = a.den := by
    rcases le_total 0 a with ha | ha
    · rw [Rat.abs_of_nonneg ha]
    · rw [Rat.abs_of_nonpos ha, Rat.den_neg_eq_den]
  intro p hp hdvd
  exact h p hp (hden ▸ hdvd)

theorem ten_pow_eq (k : Nat) : 10 ^ k = 2 ^ k * 5 ^ k := by
  rw [← Nat.mul_pow]

/-- `places?` splits a denominator into twos, fives and a rest without either, and answers if the
rest is one. -/
theorem exists_places?_eq (hden : den ≠ 0) :
    ∃ twos fives rest : Nat, den = 2 ^ twos * 5 ^ fives * rest ∧ ¬2 ∣ rest ∧ ¬5 ∣ rest ∧
      places? den = if rest = 1 then some (max twos fives) else none := by
  obtain ⟨odd, twos, rest, fives, htwos, hfives, -, hsplit, htwo, hfive⟩ :=
    Factor.exists_splitOff_two_five hden
  refine ⟨twos, fives, rest, hsplit, htwo, hfive, ?_⟩
  simp only [places?, htwos, hfives]
  norm_cast

theorem places?_cases (a : Rat) :
    (Terminates a ∧ ∃ k, places? a.den = some k ∧ a.den ∣ 10 ^ k) ∨
      (¬Terminates a ∧ places? a.den = none) := by
  obtain ⟨twos, fives, rest, hden, htwo, hfive, hplaces⟩ := exists_places?_eq a.den_nz
  by_cases hrest : rest = 1
  · left
    rw [hrest, Nat.mul_one] at hden
    rw [if_pos hrest] at hplaces
    refine ⟨terminates_of_dvd (dvd_of_eq hden), _, hplaces, ?_⟩
    rw [hden]
    exact Factor.two_pow_mul_five_pow_dvd_iff.mpr (le_refl _)
  · right
    rw [if_neg hrest] at hplaces
    refine ⟨fun hterm => ?_, hplaces⟩
    obtain ⟨p, hp, hdvd⟩ := Nat.exists_prime_and_dvd hrest
    rcases hterm p hp (hden ▸ hdvd.mul_left _) with rfl | rfl
    · exact htwo hdvd
    · exact hfive hdvd

/-- The multiple of `10 ^ -places` to which `a` is rounded, in units of the last place. -/
def roundedUnits (places : Nat) (a : Rat) : Int :=
  let units := roundHalfUp (a.num.natAbs * 10 ^ places) a.den
  if a.num < 0 then -units else units

theorem two_mul_abs_roundHalfUp_sub_le (n : Nat) (hden : den ≠ 0) :
    2 * |(roundHalfUp n den * den : Int) - n| ≤ den := by
  have hn : (n : Int) = den * (n / den : Nat) + (n % den : Nat) := by
    exact_mod_cast (Nat.div_add_mod n den).symm
  have hlt := Nat.mod_lt n (Nat.pos_of_ne_zero hden)
  unfold roundHalfUp
  generalize n / den = q at hn ⊢
  generalize n % den = r at hn hlt ⊢
  split
  · have hsub : ((q + 1 : Nat) * den : Int) - n = den - r := by
      rw [hn]
      push_cast
      ring
    rw [hsub, abs_of_nonneg (by omega)]
    omega
  · have hsub : (q * den : Int) - n = -r := by
      rw [hn]
      ring
    rw [hsub, abs_neg, abs_of_nonneg (by omega)]
    omega

/-- Rounding is off by no more than half a unit. -/
theorem two_mul_abs_roundedUnits_sub_le (places : Nat) (a : Rat) :
    2 * |roundedUnits places a * a.den - a.num * 10 ^ places| ≤ a.den := by
  have h := two_mul_abs_roundHalfUp_sub_le (a.num.natAbs * 10 ^ places) a.den_nz
  push_cast at h
  unfold roundedUnits
  dsimp only
  split
  · rename_i hneg
    rw [abs_of_neg hneg] at h
    rwa [← abs_neg, show ∀ u : Int, -(-u * a.den - a.num * 10 ^ places) =
      u * a.den - -a.num * 10 ^ places from fun u => by ring]
  · rename_i hneg
    rwa [abs_of_nonneg (Int.not_lt.mp hneg)] at h

theorem abs_roundedUnits_div_sub (places : Nat) (a : Rat) :
    |(roundedUnits places a : Rat) / 10 ^ places - a| =
      (|roundedUnits places a * a.den - a.num * 10 ^ places| : Int) / (a.den * 10 ^ places) := by
  have hden : (a.den : Rat) ≠ 0 := by exact_mod_cast a.den_nz
  have hpos : (0 : Rat) < a.den * 10 ^ places := by positivity
  have hsub : (roundedUnits places a : Rat) / 10 ^ places - a =
      ((roundedUnits places a * a.den - a.num * 10 ^ places : Int) : Rat) / (a.den * 10 ^ places) := by
    conv => lhs; arg 2; rw [← Rat.num_div_den a]
    push_cast
    field_simp
  rw [hsub, abs_div, abs_of_pos hpos, Int.cast_abs]

theorem roundedUnits_div_of_dvd (h : a.den ∣ 10 ^ places) :
    (roundedUnits places a : Rat) / 10 ^ places = a := by
  have hle := two_mul_abs_roundedUnits_sub_le places a
  have hpos : (0 : Int) < a.den := by exact_mod_cast a.den_pos
  have hdvd : (a.den : Int) ∣ roundedUnits places a * a.den - a.num * 10 ^ places :=
    dvd_sub (Dvd.intro_left _ rfl) ((by exact_mod_cast h : (a.den : Int) ∣ 10 ^ places).mul_left _)
  have hzero := Int.eq_zero_of_abs_lt_dvd hdvd (by omega)
  rw [← sub_eq_zero, ← abs_eq_zero, abs_roundedUnits_div_sub, hzero]
  simp

/-- Nothing but twos and fives divides the denominator of a tie. -/
theorem terminates_of_tie
    (h : 2 * |roundedUnits places a * a.den - a.num * 10 ^ places| = a.den) : Terminates a := by
  have htwice : (a.den : Int) ∣ 2 * (roundedUnits places a * a.den - a.num * 10 ^ places) := by
    rw [← dvd_abs, abs_mul]
    exact dvd_of_eq h.symm
  have hdvd : (a.den : Int) ∣ 2 * 10 ^ places * a.num := by
    have hsub := dvd_sub (Dvd.intro_left (2 * roundedUnits places a) rfl) htwice
    rwa [show 2 * roundedUnits places a * (a.den : Int) -
      2 * (roundedUnits places a * a.den - a.num * 10 ^ places) = 2 * 10 ^ places * a.num by ring]
      at hsub
  have hten : (a.den : Int) ∣ 2 * 10 ^ places :=
    Int.dvd_of_dvd_mul_left_of_gcd_one hdvd a.reduced.symm
  have hten : a.den ∣ 2 * 10 ^ places := by exact_mod_cast hten
  rw [ten_pow_eq, ← Nat.mul_assoc, ← Nat.pow_succ'] at hten
  exact terminates_of_dvd hten

theorem abs_roundedUnits_div_sub_lt (h : ¬Terminates a) :
    |(roundedUnits places a : Rat) / 10 ^ places - a| < 1 / (2 * 10 ^ places) := by
  have hlt : 2 * |roundedUnits places a * a.den - a.num * 10 ^ places| < a.den :=
    lt_of_le_of_ne (two_mul_abs_roundedUnits_sub_le places a) fun htie => h (terminates_of_tie htie)
  have hlt : ((2 * |roundedUnits places a * a.den - a.num * 10 ^ places| : Int) : Rat) < a.den := by
    exact_mod_cast hlt
  have hden : (0 : Rat) < a.den := by exact_mod_cast a.den_pos
  have hten : (0 : Rat) < 10 ^ places := by positivity
  rw [abs_roundedUnits_div_sub, div_lt_div_iff₀ (mul_pos hden hten) (by positivity)]
  push_cast at hlt ⊢
  nlinarith

/-- `x` is a multiple of `10 ^ -places`, and every other multiple is further from `a`. -/
structure IsNearest (places : Nat) (a x : Rat) : Prop where
  multiple : ∃ n : Int, x = n / 10 ^ places
  closest : ∀ n : Int, (n : Rat) / 10 ^ places ≠ x → |x - a| < |(n : Rat) / 10 ^ places - a|

theorem isNearest_of_abs_sub_lt {m : Int}
    (h : |(m : Rat) / 10 ^ places - a| < 1 / (2 * 10 ^ places)) :
    IsNearest places a (m / 10 ^ places) where
  multiple := ⟨m, rfl⟩
  closest := by
    intro n hne
    have hten : (0 : Rat) < 10 ^ places := by positivity
    have hstep : (1 : Rat) ≤ |(n : Rat) - m| := by
      have : n ≠ m := by
        rintro rfl
        exact hne rfl
      exact_mod_cast Int.one_le_abs (sub_ne_zero.mpr this)
    have hgap : 1 / 10 ^ places ≤ |(n : Rat) / 10 ^ places - m / 10 ^ places| := by
      rw [← sub_div, abs_div, abs_of_pos hten]
      exact div_le_div_of_nonneg_right hstep hten.le
    have htriangle := abs_sub_le ((n : Rat) / 10 ^ places) a (m / 10 ^ places)
    rw [abs_sub_comm a] at htriangle
    have hhalf : 1 / (2 * 10 ^ places) + 1 / (2 * 10 ^ places) = (1 : Rat) / 10 ^ places := by
      field_simp
      norm_num
    linarith

/-! ### The text -/

/-- How many digits after the point the text of `a` is rounded to. -/
def shownPlaces (a : Rat) : Nat :=
  (places? a.den).getD roundedPlaces

/-- The text has the sign of the rounded value. -/
theorem rounded_eq (places : Nat) (a : Rat) :
    rounded a.num a.den places =
      if roundedUnits places a < 0 then '-' :: layout (roundedUnits places a).natAbs places
      else layout (roundedUnits places a).natAbs places := by
  have hpow : Nat.pow 10 places = 10 ^ places := rfl
  unfold rounded roundedUnits
  rw [hpow]
  generalize roundHalfUp (a.num.natAbs * 10 ^ places) a.den = units
  by_cases hneg : a.num < 0
  · by_cases hzero : units = 0
    · simp [hneg, hzero]
    · have hlt : -(units : Int) < 0 := by omega
      simp [hneg, hzero]
  · have hle : ¬(units : Int) < 0 := by omega
    simp [hneg, hle]

theorem isNotation_rounded (places : Nat) (a : Rat) : IsNotation (rounded a.num a.den places) := by
  rw [rounded_eq]
  split
  · exact .negative (isUnsigned_layout ..)
  · exact .unsigned (isUnsigned_layout ..)

theorem read?_rounded (places : Nat) (a : Rat) :
    read? (rounded a.num a.den places) = some ((roundedUnits places a : Rat) / 10 ^ places) := by
  rw [rounded_eq]
  split
  · rename_i hneg
    rw [read?, readUnsigned?_layout, Option.map_some, Nat.cast_natAbs, abs_of_neg hneg, Int.cast_neg,
      neg_div, neg_neg]
  · rename_i hneg
    rw [(isUnsigned_layout ..).read?_eq, readUnsigned?_layout, Nat.cast_natAbs,
      abs_of_nonneg (Int.not_lt.mp hneg)]

theorem layout_zero (n : Nat) : layout n 0 = Nat.toDigits 10 n := by
  rw [layout_of_eq_nil, Nat.pow_zero, Nat.div_one]
  unfold padded
  rw [show Nat.pow 10 0 = 1 from rfl, Nat.mod_one]
  rfl

theorem toList_text (a : Rat) : (text a).toList = rounded a.num a.den (shownPlaces a) := by
  unfold text
  split
  · rename_i hden
    have hplaces : shownPlaces a = 0 := by
      rw [shownPlaces, hden]
      decide +kernel
    have hunits : roundedUnits 0 a = a.num := by
      have h : (roundedUnits 0 a : Rat) / 10 ^ 0 = a := roundedUnits_div_of_dvd (hden ▸ one_dvd _)
      rw [pow_zero, div_one] at h
      exact_mod_cast h.trans ((Rat.den_eq_one_iff a).mp hden).symm
    rw [hplaces, rounded_eq, hunits, layout_zero, Digits.toList_text]
  · rw [String.toList_ofList]
    rfl

theorem isNotation_text (a : Rat) : IsNotation (text a).toList := by
  rw [toList_text]
  exact isNotation_rounded ..

theorem text_ne_empty (a : Rat) : text a ≠ "" := by
  intro h
  have hnotation := isNotation_text a
  rw [h] at hnotation
  exact hnotation.ne_nil rfl

theorem isUnsigned_text (h : 0 ≤ a) : IsUnsigned (text a).toList := by
  have hnonneg : 0 ≤ roundedUnits (shownPlaces a) a := by
    unfold roundedUnits
    rw [if_neg (not_lt.mpr (Rat.num_nonneg.mpr h))]
    omega
  rw [toList_text, rounded_eq, if_neg (not_lt.mpr hnonneg)]
  exact isUnsigned_layout ..

theorem read?_text (a : Rat) : read? (text a).toList =
    some ((roundedUnits (shownPlaces a) a : Rat) / 10 ^ shownPlaces a) := by
  rw [toList_text, read?_rounded]

theorem read?_text_of_terminates (h : Terminates a) : read? (text a).toList = some a := by
  rcases places?_cases a with ⟨-, k, hplaces, hdvd⟩ | ⟨hnot, -⟩
  · rw [read?_text, shownPlaces, hplaces, Option.getD_some, roundedUnits_div_of_dvd hdvd]
  · exact absurd h hnot

theorem eq_of_text_eq (ha : Terminates a) (hb : Terminates b) (h : text a = text b) : a = b := by
  have hread := read?_text_of_terminates ha
  rw [h, read?_text_of_terminates hb] at hread
  exact (Option.some.inj hread).symm

theorem shownPlaces_of_not_terminates (h : ¬Terminates a) : shownPlaces a = 7 := by
  rcases places?_cases a with ⟨hterm, -⟩ | ⟨-, hplaces⟩
  · exact absurd hterm h
  · rw [shownPlaces, hplaces]
    rfl

theorem text_ne_negative_zero (a : Rat) : text a ≠ "-0" := by
  intro htext
  have hchars : (text a).toList = ['-', '0'] := by
    rw [htext]
    rfl
  have hread := read?_text a
  rw [hchars] at hread
  have hzero : roundedUnits (shownPlaces a) a = 0 := by
    have h : (roundedUnits (shownPlaces a) a : Rat) / 10 ^ shownPlaces a = 0 :=
      Option.some.inj (hread.symm.trans (by decide +kernel))
    rw [div_eq_zero_iff] at h
    exact_mod_cast h.resolve_right (by positivity)
  rw [toList_text, rounded_eq, hzero, if_neg (by omega)] at hchars
  have hminus := (isUnsigned_layout _ _).mem (hchars ▸ List.mem_cons_self ..)
  simp at hminus

/-- Decimal text is canonical notation. It is read as the value itself if the expansion ends, and
else as the nearest multiple of `10 ^ -7`. -/
theorem text_denotes (a : Rat) :
    IsNotation (text a).toList ∧ text a ≠ "-0" ∧ ∃ x, read? (text a).toList = some x ∧
      (Terminates a → x = a) ∧ (¬Terminates a → IsNearest 7 a x ∧ |x - a| < 5 / 10 ^ 8) := by
  refine ⟨isNotation_text a, text_ne_negative_zero a, _, read?_text a, fun hterm => ?_, fun h => ?_⟩
  · exact Option.some.inj ((read?_text a).symm.trans (read?_text_of_terminates hterm))
  · rw [shownPlaces_of_not_terminates h]
    have hlt : |(roundedUnits 7 a : Rat) / 10 ^ 7 - a| < 1 / (2 * 10 ^ 7) :=
      abs_roundedUnits_div_sub_lt h
    refine ⟨isNearest_of_abs_sub_lt hlt, lt_of_lt_of_eq hlt ?_⟩
    norm_num

/-- The carry of a rounded value reaches its whole part, and what is rounded to zero is written
without a sign. -/
theorem text_denotes_carrying :
    IsNearest 7 (29999999 / 30000000) 1 ∧ text (29999999 / 30000000) = "1" ∧
      IsNearest 7 (-1 / 300000000) 0 ∧ text (-1 / 300000000) = "0" ∧
      read? (text (-1 / 1024)).toList = some (-1 / 1024) := by
  have hthree {a : Rat} (h : 3 ∣ a.den) : ¬Terminates a := fun hterm => by
    rcases hterm 3 Nat.prime_three h with h | h <;> omega
  obtain ⟨-, -, x, hx, -, hnearest⟩ := text_denotes (29999999 / 30000000)
  obtain rfl : x = 1 := Option.some.inj (hx.symm.trans (by decide +kernel))
  obtain ⟨-, -, y, hy, -, hzero⟩ := text_denotes (-1 / 300000000)
  obtain rfl : y = 0 := Option.some.inj (hy.symm.trans (by decide +kernel))
  obtain ⟨-, -, z, hz, hexact, -⟩ := text_denotes (-1 / 1024)
  have hends : Terminates (-1 / 1024) := terminates_of_dvd (i := 10) (j := 0) (by decide +kernel)
  exact ⟨(hnearest (hthree (by decide +kernel))).1, by decide +kernel,
    (hzero (hthree (by decide +kernel))).1, by decide +kernel, hz.trans (congrArg some (hexact hends))⟩

end SolvedForm.Decimal
