import Mathlib.Algebra.Order.Ring.Int
import Mathlib.Data.Nat.Prime.Basic
import Mathlib.Tactic.Positivity
import Mathlib.Tactic.Ring
import SolvedForm.Number.Factor

/-!
# Dividing out a factor

`splitOff_mul_pow`: what `splitOff` leaves, together with the factors that it divided out, is the
number again. `not_dvd_splitOff`: what it leaves holds no further factor. So a number that is split
into twos, fives and a rest divides a power of ten exactly if the rest is one, and then it divides
those from the larger count on (`dvd_ten_pow_iff`).
-/

namespace SolvedForm.Factor

theorem splitOff_mul_pow (p n : Int) : (splitOff p n).1 * p ^ (splitOff p n).2 = n := by
  fun_induction splitOff p n with
  | case1 n h rest count hrec ih =>
    rw [hrec] at ih
    calc rest * p ^ (count + 1)
        = rest * p ^ count * p := by ring
      _ = n.tdiv p * p := by rw [ih]
      _ = n := Int.tdiv_mul_cancel (Int.dvd_of_tmod_eq_zero h.2.2)
  | case2 n h => simp

theorem not_dvd_splitOff {p n : Int} (hp : 2 ≤ p) (hn : n ≠ 0) : ¬p ∣ (splitOff p n).1 := by
  fun_induction splitOff p n with
  | case1 n h rest count hrec ih =>
    rw [hrec] at ih
    refine ih ?_
    intro hz
    have := Int.tdiv_mul_cancel (Int.dvd_of_tmod_eq_zero h.2.2)
    rw [hz, zero_mul] at this
    exact hn this.symm
  | case2 n h =>
    intro hdvd
    exact h ⟨hp, hn, Int.tmod_eq_zero_of_dvd hdvd⟩

/-- Of a natural number a natural number is left. -/
theorem exists_splitOff_natCast {p n : Nat} (hp : 2 ≤ p) (hn : n ≠ 0) :
    ∃ rest count : Nat, splitOff p n = ((rest : Int), count) ∧ n = rest * p ^ count ∧ ¬p ∣ rest := by
  have hmul := splitOff_mul_pow p n
  have hndvd := not_dvd_splitOff (p := p) (n := n) (by omega) (by omega)
  have hpos : 0 < (splitOff p n).1 := by
    refine pos_of_mul_pos_left (b := (p : Int) ^ (splitOff p n).2) ?_ (by positivity)
    rw [hmul]
    omega
  obtain ⟨rest, hrest⟩ := Int.eq_ofNat_of_zero_le hpos.le
  rw [hrest] at hmul hndvd
  exact ⟨rest, (splitOff p n).2, Prod.ext hrest rfl, by exact_mod_cast hmul.symm,
    by exact_mod_cast hndvd⟩

theorem strip_eq_ok {p n : Int} (hp : 2 ≤ p) (hn : n ≠ 0) : strip n p = .ok (splitOff p n) := by
  rw [strip, if_neg (Int.not_lt.mpr hp), if_neg hn]

theorem exists_splitOff_two_five {n : Nat} (hn : n ≠ 0) :
    ∃ odd twos rest fives : Nat, splitOff 2 n = ((odd : Int), twos) ∧
      splitOff 5 odd = ((rest : Int), fives) ∧ odd ≠ 0 ∧ n = 2 ^ twos * 5 ^ fives * rest ∧
      ¬2 ∣ rest ∧ ¬5 ∣ rest := by
  obtain ⟨odd, twos, htwos, rfl, hodd⟩ := exists_splitOff_natCast (le_refl 2) hn
  have hodd0 : odd ≠ 0 := by
    rintro rfl
    simp at hn
  obtain ⟨rest, fives, hfives, rfl, hrest⟩ := exists_splitOff_natCast (p := 5) (by omega) hodd0
  exact ⟨_, twos, rest, fives, htwos, hfives, hodd0, by ring, fun h => hodd (h.mul_right _), hrest⟩

/-- Each two and each five needs a ten of its own. -/
theorem two_pow_mul_five_pow_dvd_iff {twos fives k : Nat} :
    2 ^ twos * 5 ^ fives ∣ 10 ^ k ↔ max twos fives ≤ k := by
  have hten : 10 ^ k = 2 ^ k * 5 ^ k := by rw [← Nat.mul_pow]
  have hcoprime : Nat.Coprime 2 5 := by decide
  rw [hten, max_le_iff]
  constructor
  · intro h
    have htwos : 2 ^ twos ∣ 2 ^ k :=
      (hcoprime.pow twos k).dvd_of_dvd_mul_right ((dvd_mul_right ..).trans h)
    have hfives : 5 ^ fives ∣ 5 ^ k :=
      (hcoprime.symm.pow fives k).dvd_of_dvd_mul_left ((dvd_mul_left ..).trans h)
    exact ⟨(Nat.pow_dvd_pow_iff_le_right (by omega)).mp htwos,
      (Nat.pow_dvd_pow_iff_le_right (by omega)).mp hfives⟩
  · rintro ⟨htwos, hfives⟩
    exact Nat.mul_dvd_mul (Nat.pow_dvd_pow 2 htwos) (Nat.pow_dvd_pow 5 hfives)

/-- A number with a factor other than two and five divides no power of ten. -/
theorem dvd_ten_pow_iff {twos fives rest k : Nat} (htwo : ¬2 ∣ rest) (hfive : ¬5 ∣ rest) :
    2 ^ twos * 5 ^ fives * rest ∣ 10 ^ k ↔ rest = 1 ∧ max twos fives ≤ k := by
  rw [← two_pow_mul_five_pow_dvd_iff]
  constructor
  · intro h
    have h2 : Nat.Coprime 2 rest := Nat.prime_two.coprime_iff_not_dvd.mpr htwo
    have h5 : Nat.Coprime 5 rest := Nat.prime_five.coprime_iff_not_dvd.mpr hfive
    have h10 : Nat.Coprime (10 ^ k) rest := Nat.Coprime.pow_left k (h2.mul_left h5)
    exact ⟨h10.symm.eq_one_of_dvd ((dvd_mul_left ..).trans h), (dvd_mul_right ..).trans h⟩
  · rintro ⟨rfl, h⟩
    rwa [Nat.mul_one]

/-- Stripping a factor goes through and leaves none of it. Stripping two and then five leaves one
exactly of the numbers that divide a power of ten, and the larger count is the least such power. -/
theorem strip_exact {n : Int} (hn : n ≠ 0) :
    (∀ p, 2 ≤ p → ∃ rest count, strip n p = .ok (rest, count) ∧ n = rest * p ^ count ∧ ¬p ∣ rest) ∧
    (0 < n → ∃ odd twos rest fives, strip n 2 = .ok (odd, twos) ∧ strip odd 5 = .ok (rest, fives) ∧
      (rest = 1 ↔ ∃ k : Nat, n ∣ 10 ^ k) ∧
      (rest = 1 → n ∣ 10 ^ max twos fives ∧ ∀ k < max twos fives, ¬n ∣ 10 ^ k)) := by
  refine ⟨fun p hp => ⟨_, _, strip_eq_ok hp hn, (splitOff_mul_pow p n).symm,
    not_dvd_splitOff hp hn⟩, fun hpos => ?_⟩
  obtain ⟨n, rfl⟩ := Int.eq_ofNat_of_zero_le hpos.le
  obtain ⟨odd, twos, rest, fives, htwos, hfives, hodd, hsplit, htwo, hfive⟩ :=
    exists_splitOff_two_five (n := n) (by omega)
  have hdvd (k : Nat) : (n : Int) ∣ 10 ^ k ↔ rest = 1 ∧ max twos fives ≤ k := by
    rw [← dvd_ten_pow_iff htwo hfive, ← hsplit]
    exact_mod_cast Iff.rfl
  refine ⟨odd, twos, rest, fives, ?_, ?_, ?_, ?_⟩
  · rw [strip_eq_ok (by omega) hn, htwos]
  · rw [strip_eq_ok (by omega) (by exact_mod_cast hodd), hfives]
  · simp only [hdvd, Nat.cast_eq_one]
    exact ⟨fun h => ⟨_, h, le_refl _⟩, fun ⟨_, h, _⟩ => h⟩
  · intro hone
    have hone : rest = 1 := by exact_mod_cast hone
    exact ⟨(hdvd _).mpr ⟨hone, le_refl _⟩, fun k hk h => absurd ((hdvd k).mp h).2 (by omega)⟩

/-- A composite factor of a negative number, a number that divides `10 ^ 4` but not `10 ^ 3`, and one
that divides no power of ten. -/
theorem strip_exact_composite :
    (strip (-72) 6 = .ok (-2, 2) ∧ (-72 : Int) = -2 * 6 ^ 2 ∧ ¬(6 : Int) ∣ -2) ∧
    (strip 400 2 = .ok (25, 4) ∧ strip 25 5 = .ok (1, 2) ∧
      (400 : Int) ∣ 10 ^ 4 ∧ ∀ k < 4, ¬(400 : Int) ∣ 10 ^ k) ∧
    strip 300 2 = .ok (75, 2) ∧ strip 75 5 = .ok (3, 2) ∧ ¬∃ k : Nat, (300 : Int) ∣ 10 ^ k := by
  have hsix : strip (-72) 6 = .ok (-2, 2) := by decide +kernel
  have htwos : strip 400 2 = .ok (25, 4) ∧ strip 300 2 = .ok (75, 2) := by decide +kernel
  have hfives : strip 25 5 = .ok (1, 2) ∧ strip 75 5 = .ok (3, 2) := by decide +kernel
  obtain ⟨rest, count, hstrip, hmul, hndvd⟩ := (strip_exact (n := -72) (by omega)).1 6 (by omega)
  obtain ⟨rfl, rfl⟩ := Prod.mk.inj (Except.ok.inj (hstrip.symm.trans hsix))
  obtain ⟨odd, twos, rest, fives, htwos', hfives', -, hleast⟩ :=
    (strip_exact (n := 400) (by omega)).2 (by omega)
  obtain ⟨rfl, rfl⟩ := Prod.mk.inj (Except.ok.inj (htwos'.symm.trans htwos.1))
  obtain ⟨rfl, rfl⟩ := Prod.mk.inj (Except.ok.inj (hfives'.symm.trans hfives.1))
  obtain ⟨odd, twos, rest, fives, htwos', hfives', hiff, -⟩ :=
    (strip_exact (n := 300) (by omega)).2 (by omega)
  obtain ⟨rfl, rfl⟩ := Prod.mk.inj (Except.ok.inj (htwos'.symm.trans htwos.2))
  obtain ⟨rfl, rfl⟩ := Prod.mk.inj (Except.ok.inj (hfives'.symm.trans hfives.2))
  exact ⟨⟨hsix, hmul, hndvd⟩, ⟨htwos.1, hfives.1, hleast rfl⟩, htwos.2, hfives.2,
    fun h => absurd (hiff.mpr h) (by decide)⟩

end SolvedForm.Factor
