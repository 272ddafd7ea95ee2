import Mathlib.Data.List.TakeWhile
import Mathlib.Data.Rat.Defs
import SolvedForm.Number.Fraction

/-!
# Fractions and their text

`Division.fraction n d` is in lowest terms and has the value `n / d`, whatever the signs
(`num_mul_eq_mul_den`), so two fractions are the same rational exactly if their cross products agree
(`fraction_eq_fraction_iff`). The text of a rational holds one `/` at most, between its numerator and
its denominator (`Fraction.readParts?_text`), and is read as that rational (`Fraction.read?_text`).
-/

namespace SolvedForm

namespace Division

variable {n d m e : Int}

theorem fraction_eq_ok (hd : d ≠ 0) : fraction n d = .ok (Rat.divInt n d) :=
  if_neg hd

theorem num_mul_eq_mul_den (hd : d ≠ 0) :
    (Rat.divInt n d).num * d = n * (Rat.divInt n d).den := by
  have hden : ((Rat.divInt n d).den : Int) ≠ 0 := by exact_mod_cast (Rat.divInt n d).den_nz
  exact (Rat.divInt_eq_divInt_iff hden hd).mp (Rat.num_divInt_den _)

theorem fraction_eq_fraction_iff (hd : d ≠ 0) (he : e ≠ 0) :
    fraction n d = fraction m e ↔ n * e = m * d := by
  rw [fraction_eq_ok hd, fraction_eq_ok he, Except.ok.injEq, Rat.divInt_eq_divInt_iff hd he]

theorem fraction_num_den (a : Rat) : fraction a.num a.den = .ok a := by
  have hden : (a.den : Int) ≠ 0 := by exact_mod_cast a.den_nz
  rw [fraction_eq_ok hden, Rat.num_divInt_den]

end Division

namespace Digits

theorem mem_toList_text {n : Int} {c : Char} (hc : c ∈ (text n).toList) : c = '-' ∨ c.isDigit := by
  rw [toList_text] at hc
  split at hc
  · exact (List.mem_cons.mp hc).imp id (isDigit_of_mem_toDigits c)
  · exact .inr (isDigit_of_mem_toDigits c hc)

theorem ne_slash_of_mem_text (n : Int) :
    ∀ c ∈ (text n).toList, decide (c ≠ '/') = true := by
  intro c hc
  rw [decide_eq_true_eq]
  rintro rfl
  simpa using mem_toList_text hc

end Digits

namespace Fraction

theorem readParts?_text (a : Rat) : readParts? (text a) = some (a.num, (a.den : Int)) := by
  have hnum := Digits.ne_slash_of_mem_text a.num
  unfold readParts? text
  split
  · rename_i hden
    rw [List.takeWhile_eq_self_iff.mpr hnum, List.dropWhile_eq_nil_iff.mpr hnum, hden]
    simp [Digits.readChars?_toList_text]
  · have hden : Digits.readChars? (Digits.natText a.den).toList = some (a.den : Int) := by
      rw [Digits.natText, String.toList_ofList,
        Digits.readChars?_of_isDigit Digits.isDigit_of_mem_toDigits, Digits.readNat?_toDigits]
      rfl
    have htext : (Digits.text a.num ++ "/" ++ Digits.natText a.den).toList =
        (Digits.text a.num).toList ++ '/' :: (Digits.natText a.den).toList := by
      simp
    rw [htext, List.takeWhile_append_of_pos hnum, List.dropWhile_append_of_pos hnum]
    simp [Digits.readChars?_toList_text, hden]

theorem read?_text (a : Rat) : read? (text a) = some (.ok a) := by
  rw [read?, readParts?_text]
  exact congrArg some (Division.fraction_num_den a)

theorem text_injective : Function.Injective text := by
  intro a b h
  have hread := read?_text a
  rw [h, read?_text] at hread
  exact (Except.ok.inj (Option.some.inj hread)).symm

/-- Fractions are in lowest terms with the sign above the bar, one rational for each value, and a
rational is what its text is read as. -/
theorem canonical_and_read :
    (∀ n d : Int, d ≠ 0 → ∃ a, Division.fraction n d = .ok a ∧
      0 < a.den ∧ a.num.natAbs.Coprime a.den ∧ a.num * d = n * a.den) ∧
    (∀ n d m e : Int, d ≠ 0 → e ≠ 0 →
      (Division.fraction n d = Division.fraction m e ↔ n * e = m * d)) ∧
    (∀ a, read? (text a) = some (.ok a)) ∧ ∀ a b, a ≠ b → text a ≠ text b := by
  refine ⟨fun n d hd => ?_, fun n d m e => Division.fraction_eq_fraction_iff, read?_text,
    fun a b hne heq => hne (text_injective heq)⟩
  exact ⟨_, Division.fraction_eq_ok hd, Rat.den_pos _, Rat.reduced _,
    Division.num_mul_eq_mul_den hd⟩

theorem canonical_and_read_negative :
    (∃ a, Division.fraction 6 (-4) = .ok a ∧ a.num * -4 = 6 * a.den ∧ text a = "-3/2" ∧
      read? "-3/2" = some (.ok a)) ∧
    Division.fraction 6 (-4) = Division.fraction (-9) 6 ∧
    Division.fraction 6 (-4) ≠ Division.fraction 9 6 := by
  obtain ⟨hreduced, hcross, hread, -⟩ := canonical_and_read
  obtain ⟨a, ha, -, -, hmul⟩ := hreduced 6 (-4) (by decide)
  have htext : text a = "-3/2" := by
    have h : (Division.fraction 6 (-4)).toOption.map text = some "-3/2" := by decide +kernel
    rw [ha] at h
    exact Option.some.inj h
  refine ⟨⟨a, ha, hmul, htext, htext ▸ hread a⟩, ?_, ?_⟩
  · exact (hcross 6 (-4) (-9) 6 (by decide) (by decide)).mpr (by decide)
  · exact fun h => absurd ((hcross 6 (-4) 9 6 (by decide) (by decide)).mp h) (by decide)

end Fraction

end SolvedForm
