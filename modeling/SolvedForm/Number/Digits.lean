/-!
# Decimal digits of integers

`Digits.text` writes an integer in canonical decimal notation; `Digits.read?` reads that notation
and also an explicit `+`, leading zeros and `-0`.
-/

namespace SolvedForm.Digits

def natText (n : Nat) : String :=
  String.ofList (Nat.toDigits 10 n)

/-- Canonical decimal notation: no leading zero, a sign only for negative numbers. -/
def text (n : Int) : String :=
  if n < 0 then "-" ++ natText n.natAbs else natText n.natAbs

/-- The number written by a non-empty list of decimal digits. -/
def readNat? (cs : List Char) : Option Nat :=
  if !cs.isEmpty && cs.all Char.isDigit then some (Nat.ofDigitChars 10 cs 0) else none

/-- The integer written by an optional sign and decimal digits. -/
def readChars? : List Char → Option Int
  | '-' :: cs => (readNat? cs).map fun n : Nat => -(n : Int)
  | '+' :: cs => (readNat? cs).map fun n : Nat => (n : Int)
  | cs => (readNat? cs).map fun n : Nat => (n : Int)

def read? (s : String) : Option Int :=
  readChars? s.toList

theorem isDigit_of_mem_toDigits {n : Nat} : ∀ c ∈ Nat.toDigits 10 n, c.isDigit = true :=
  fun _ hc => Nat.isDigit_of_mem_toDigits (by omega) (by omega) hc

theorem readNat?_of_isDigit {cs : List Char} (hne : cs ≠ []) (h : ∀ c ∈ cs, c.isDigit = true) :
    readNat? cs = some (Nat.ofDigitChars 10 cs 0) := by
  rw [readNat?, List.isEmpty_eq_false_iff.mpr hne, List.all_eq_true.mpr h]
  rfl

theorem readNat?_toDigits (n : Nat) : readNat? (Nat.toDigits 10 n) = some n := by
  rw [readNat?_of_isDigit Nat.toDigits_ne_nil isDigit_of_mem_toDigits,
    Nat.ofDigitChars_ten_toDigits]

theorem eq_of_toDigits_eq {n m : Nat} (h : Nat.toDigits 10 n = Nat.toDigits 10 m) : n = m := by
  have hread := readNat?_toDigits n
  rw [h, readNat?_toDigits] at hread
  exact (Option.some.inj hread).symm

theorem readChars?_of_isDigit {cs : List Char} (h : ∀ c ∈ cs, c.isDigit = true) :
    readChars? cs = (readNat? cs).map fun n : Nat => (n : Int) := by
  unfold readChars?
  split
  · simpa using h '-' (List.mem_cons_self ..)
  · simpa using h '+' (List.mem_cons_self ..)
  · rfl

theorem toList_text (n : Int) :
    (text n).toList =
      if n < 0 then '-' :: Nat.toDigits 10 n.natAbs else Nat.toDigits 10 n.natAbs := by
  unfold text natText
  split
  · simp
  · rw [String.toList_ofList]

theorem readChars?_toList_text (n : Int) : readChars? (text n).toList = some n := by
  rw [toList_text]
  split
  · rw [readChars?, readNat?_toDigits, Option.map_some]
    congr 1
    omega
  · rw [readChars?_of_isDigit isDigit_of_mem_toDigits, readNat?_toDigits, Option.map_some]
    congr 1
    omega

end SolvedForm.Digits
