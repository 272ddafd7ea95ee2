import Mathlib.Algebra.Field.Rat
import Mathlib.Data.List.DropRight
import Mathlib.Data.List.TakeWhile
import Mathlib.Tactic.FieldSimp
import SolvedForm.Number.Decimal

/-!
# Decimal notation

`read?` reads decimal notation as a rational, and `IsNotation` says when it is canonical: no zero
stands in front of a whole part of several digits or at the end of a fraction, and no point without a
fraction. `layout` writes canonical notation (`isUnsigned_layout`) that is read as the units that it
was given (`readUnsigned?_layout`).
-/

namespace SolvedForm.Decimal

variable {cs whole fraction : List Char} {n units places : Nat}

/-- The number written by digits, or by digits around a point. -/
def readUnsigned? (cs : List Char) : Option Rat :=
  let whole := Digits.readNat? (cs.takeWhile (· ≠ '.'))
  match cs.dropWhile (· ≠ '.') with
  | [] => whole.map fun n : Nat => (n : Rat)
  | _ :: fraction =>
    whole.bind fun n =>
      (Digits.readNat? fraction).map fun m : Nat => (n : Rat) + m / 10 ^ fraction.length

/-- The number written in decimal notation with or without a minus in front. -/
def read? : List Char → Option Rat
  | '-' :: cs => (readUnsigned? cs).map fun a => -a
  | cs => readUnsigned? cs

/-- Digits without a zero in front, unless it is the only one. -/
structure IsWhole (cs : List Char) : Prop where
  isDigit : ∀ c ∈ cs, c.isDigit
  no_leading_zero : cs = ['0'] ∨ ∃ c ds, cs = c :: ds ∧ c ≠ '0'

/-- Digits without a zero at the end, and at least one. -/
structure IsFraction (cs : List Char) : Prop where
  isDigit : ∀ c ∈ cs, c.isDigit
  no_trailing_zero : ∃ ds c, cs = ds ++ [c] ∧ c ≠ '0'

/-- A whole part, with or without a fraction after it. -/
inductive IsUnsigned : List Char → Prop
  | whole {whole : List Char} (h : IsWhole whole) : IsUnsigned whole
  | point {whole fraction : List Char} (h : IsWhole whole) (hf : IsFraction fraction) :
    IsUnsigned (whole ++ '.' :: fraction)

/-- Canonical notation, with or without a minus in front. -/
inductive IsNotation : List Char → Prop
  | unsigned {cs : List Char} (h : IsUnsigned cs) : IsNotation cs
  | negative {cs : List Char} (h : IsUnsigned cs) : IsNotation ('-' :: cs)

theorem IsWhole.ne_nil (h : IsWhole cs) : cs ≠ [] := by
  rcases h.no_leading_zero with rfl | ⟨c, ds, rfl, -⟩ <;> simp

theorem IsFraction.ne_nil (h : IsFraction cs) : cs ≠ [] := by
  obtain ⟨ds, c, rfl, -⟩ := h.no_trailing_zero
  simp

theorem IsUnsigned.mem (h : IsUnsigned cs) {c : Char} (hc : c ∈ cs) : c.isDigit ∨ c = '.' := by
  cases h with
  | whole h => exact .inl (h.isDigit c hc)
  | point h hf =>
    rcases List.mem_append.mp hc with hc | hc
    · exact .inl (h.isDigit c hc)
    · rcases List.mem_cons.mp hc with rfl | hc
      · exact .inr rfl
      · exact .inl (hf.isDigit c hc)

theorem IsUnsigned.ne_nil (h : IsUnsigned cs) : cs ≠ [] := by
  cases h with
  | whole h => exact h.ne_nil
  | point h hf => simp

theorem IsNotation.ne_nil (h : IsNotation cs) : cs ≠ [] := by
  cases h with
  | unsigned h => exact h.ne_nil
  | negative h => simp

theorem IsNotation.mem (h : IsNotation cs) {c : Char} (hc : c ∈ cs) :
    c.isDigit ∨ c = '.' ∨ c = '-' := by
  cases h with
  | unsigned h => exact (h.mem hc).imp id .inl
  | negative h =>
    rcases List.mem_cons.mp hc with rfl | hc
    · exact .inr (.inr rfl)
    · exact (h.mem hc).imp id .inl

theorem IsUnsigned.read?_eq (h : IsUnsigned cs) : read? cs = readUnsigned? cs := by
  unfold read?
  split
  · simpa using h.mem (List.mem_cons_self ..)
  · rfl

/-- The value of the digits after a point. -/
def fractionValue (cs : List Char) : Rat :=
  Nat.ofDigitChars 10 cs 0 / 10 ^ cs.length

theorem ne_point_of_isDigit (h : ∀ c ∈ cs, c.isDigit) : ∀ c ∈ cs, decide (c ≠ '.') = true := by
  intro c hc
  simp only [ne_eq, decide_eq_true_eq]
  rintro rfl
  simpa using h _ hc

theorem readUnsigned?_whole (hne : whole ≠ []) (h : ∀ c ∈ whole, c.isDigit) :
    readUnsigned? whole = some (Nat.ofDigitChars 10 whole 0 : Rat) := by
  have hpoint := ne_point_of_isDigit h
  rw [readUnsigned?, List.takeWhile_eq_self_iff.mpr hpoint, List.dropWhile_eq_nil_iff.mpr hpoint,
    Digits.readNat?_of_isDigit hne h]
  rfl

theorem readUnsigned?_point (hne : whole ≠ []) (h : ∀ c ∈ whole, c.isDigit) (hfne : fraction ≠ [])
    (hf : ∀ c ∈ fraction, c.isDigit) :
    readUnsigned? (whole ++ '.' :: fraction) =
      some (Nat.ofDigitChars 10 whole 0 + fractionValue fraction) := by
  have hpoint := ne_point_of_isDigit h
  rw [readUnsigned?, List.takeWhile_append_of_pos hpoint, List.dropWhile_append_of_pos hpoint]
  simp [Digits.readNat?_of_isDigit hne h, Digits.readNat?_of_isDigit hfne hf, fractionValue]

/-! ### Writing digits -/

theorem isWhole_toDigits (n : Nat) : IsWhole (Nat.toDigits 10 n) where
  isDigit := fun c hc => Digits.isDigit_of_mem_toDigits c hc
  no_leading_zero := by
    have eq_zero {n : Nat} (h : Nat.toDigits 10 n = ['0']) : n = 0 :=
      Digits.eq_of_toDigits_eq (m := 0) h
    induction n using Nat.strong_induction_on with
    | _ n ih =>
      by_cases hlt : n < 10
      · rw [Nat.toDigits_of_lt_base hlt]
        rcases Nat.eq_zero_or_pos n with rfl | hpos
        · exact .inl rfl
        · refine .inr ⟨n.digitChar, [], rfl, fun hzero => ?_⟩
          have := eq_zero ((Nat.toDigits_of_lt_base hlt).trans (by rw [hzero]))
          omega
      · -- the first digit is that of the number without its last digit
        rw [Nat.toDigits_of_base_le (by omega) (by omega)]
        rcases ih (n / 10) (by omega) with hzero | ⟨c, ds, hds, hc⟩
        · have := eq_zero hzero
          omega
        · exact .inr ⟨c, ds ++ [(n % 10).digitChar], by rw [hds]; rfl, hc⟩

theorem exists_eq_dropTrailingZeros_append (cs : List Char) :
    ∃ k, cs = dropTrailingZeros cs ++ List.replicate k '0' := by
  refine ⟨(cs.rtakeWhile (· = '0')).length, ?_⟩
  have hzeros : cs.rtakeWhile (· = '0') = List.replicate (cs.rtakeWhile (· = '0')).length '0' := by
    refine List.eq_replicate_of_mem fun c hc => ?_
    simpa using List.mem_rtakeWhile_imp hc
  rw [← hzeros]
  exact (List.rdropWhile_append_rtakeWhile).symm

theorem fractionValue_dropTrailingZeros (cs : List Char) :
    fractionValue (dropTrailingZeros cs) = fractionValue cs := by
  obtain ⟨k, hk⟩ := exists_eq_dropTrailingZeros_append cs
  conv => rhs; rw [hk]
  unfold fractionValue
  rw [Nat.ofDigitChars_append, Nat.ofDigitChars_replicate_zero, List.length_append,
    List.length_replicate, pow_add]
  push_cast
  field_simp

theorem isFraction_dropTrailingZeros (h : ∀ c ∈ cs, c.isDigit) (hne : dropTrailingZeros cs ≠ []) :
    IsFraction (dropTrailingZeros cs) where
  isDigit := by
    obtain ⟨k, hk⟩ := exists_eq_dropTrailingZeros_append cs
    intro c hc
    refine h c ?_
    rw [hk]
    exact List.mem_append_left _ hc
  no_trailing_zero := by
    refine ⟨(dropTrailingZeros cs).dropLast, (dropTrailingZeros cs).getLast hne,
      (List.dropLast_append_getLast hne).symm, ?_⟩
    exact fun h => List.rdropWhile_last_not (· = '0') cs hne (decide_eq_true h)

/-- What `layout` puts after the point, before trailing zeros are dropped. -/
def padded (units places : Nat) : List Char :=
  (Nat.toDigits 10 (units % Nat.pow 10 places)).leftpad places '0'

theorem layout_of_eq_nil (h : dropTrailingZeros (padded units places) = []) :
    layout units places = Nat.toDigits 10 (units / 10 ^ places) := by
  unfold padded at h
  unfold layout
  simp only [h]
  rfl

theorem layout_of_ne_nil (h : dropTrailingZeros (padded units places) ≠ []) :
    layout units places =
      Nat.toDigits 10 (units / 10 ^ places) ++ '.' :: dropTrailingZeros (padded units places) := by
  obtain ⟨c, ds, hds⟩ := List.exists_cons_of_ne_nil h
  rw [hds]
  unfold padded at hds
  unfold layout
  simp only [hds]
  rfl

theorem isDigit_of_mem_padded : ∀ c ∈ padded units places, c.isDigit := by
  intro c hc
  rcases List.mem_append.mp hc with hc | hc
  · rw [List.eq_of_mem_replicate hc]
    rfl
  · exact Digits.isDigit_of_mem_toDigits c hc

theorem fractionValue_padded (units places : Nat) :
    fractionValue (padded units places) = ((units % 10 ^ places : Nat) : Rat) / 10 ^ places := by
  have hvalue : Nat.ofDigitChars 10 (padded units places) 0 = units % 10 ^ places := by
    unfold padded List.leftpad
    rw [Nat.ofDigitChars_append, Nat.ofDigitChars_replicate_zero, Nat.mul_zero,
      Nat.ofDigitChars_ten_toDigits]
    rfl
  rw [fractionValue, hvalue]
  rcases Nat.eq_zero_or_pos places with rfl | hpos
  · simp [Nat.mod_one]
  · have hlength : (padded units places).length = places := by
      unfold padded
      rw [List.length_leftpad, Nat.max_eq_left]
      exact (Nat.length_toDigits_le_iff (by omega) hpos).mpr (Nat.mod_lt _ (Nat.pow_pos (by omega)))
    rw [hlength]

theorem isUnsigned_layout (units places : Nat) : IsUnsigned (layout units places) := by
  by_cases hnil : dropTrailingZeros (padded units places) = []
  · rw [layout_of_eq_nil hnil]
    exact .whole (isWhole_toDigits _)
  · rw [layout_of_ne_nil hnil]
    exact .point (isWhole_toDigits _) (isFraction_dropTrailingZeros isDigit_of_mem_padded hnil)

/-- The notation of units is read as so many units of the last place. -/
theorem readUnsigned?_layout (units places : Nat) :
    readUnsigned? (layout units places) = some ((units : Rat) / 10 ^ places) := by
  have hwhole := isWhole_toDigits (units / 10 ^ places)
  have hvalue := (fractionValue_dropTrailingZeros _).trans (fractionValue_padded units places)
  have hsplit : (units : Rat) / 10 ^ places =
      (units / 10 ^ places : Nat) + ((units % 10 ^ places : Nat) : Rat) / 10 ^ places := by
    have hdiv : (units : Rat) =
        10 ^ places * (units / 10 ^ places : Nat) + (units % 10 ^ places : Nat) := by
      exact_mod_cast (Nat.div_add_mod units (10 ^ places)).symm
    conv => lhs; rw [hdiv]
    field_simp
  rw [hsplit, ← hvalue]
  by_cases hnil : dropTrailingZeros (padded units places) = []
  · rw [layout_of_eq_nil hnil, readUnsigned?_whole hwhole.ne_nil hwhole.isDigit,
      Nat.ofDigitChars_ten_toDigits, hnil]
    simp [fractionValue]
  · have hfraction := isFraction_dropTrailingZeros isDigit_of_mem_padded hnil
    rw [layout_of_ne_nil hnil, readUnsigned?_point hwhole.ne_nil hwhole.isDigit hnil
      hfraction.isDigit, Nat.ofDigitChars_ten_toDigits]

end SolvedForm.Decimal
