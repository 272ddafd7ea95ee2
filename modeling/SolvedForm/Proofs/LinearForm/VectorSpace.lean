import Mathlib.Algebra.Module.Pi
import SolvedForm.Proofs.LinearForm.Construction

/-!
# The vector space of linear forms

The valid forms in canonical shape, `Canonical`, are a vector space over the rationals. Nothing has
to be shown of merged lists of terms for that: such a form is determined by its values
(`Canonical.values_injective`), operations on forms act on the values, and the laws of the space of
functions carry over. `vectorSpaceLaws` states them for the operations themselves.
-/

namespace SolvedForm.LinearForm

variable {p q r : LinearForm} {j k : Rat}

theorem neg_eq_scale (p : LinearForm) : -p = p.scale (-1) := by
  rw [scale, if_neg (by decide)]
  simp only [mul_neg_one]
  rfl

theorem eval_neg (p : LinearForm) (s : Var → Rat) : (-p).eval s = -p.eval s := by
  rw [neg_eq_scale, eval_scale, neg_one_mul]

theorem divide_eq_ok (hk : k ≠ 0) (p : LinearForm) : p.divide k = .ok (p.scale k⁻¹) :=
  if_neg hk

/-- A valid form in canonical shape. -/
def Canonical := { p : LinearForm // p.WellFormed ∧ p.valid }

namespace Canonical

instance : Zero Canonical := ⟨⟨ofConstant 0, .ofConstant 0, rfl⟩⟩

instance : Add Canonical where
  add p q := ⟨p.1 + q.1, p.2.1.add q.2.1, Bool.and_eq_true_iff.mpr ⟨p.2.2, q.2.2⟩⟩

instance : Sub Canonical where
  sub p q := ⟨p.1 - q.1, p.2.1.sub q.2.1, Bool.and_eq_true_iff.mpr ⟨p.2.2, q.2.2⟩⟩

instance : Neg Canonical where
  neg p := ⟨-p.1, p.2.1.neg, p.2.2⟩

instance : SMul Rat Canonical where
  smul k p := ⟨p.1.scale k, p.2.1.scale k, (valid_scale k p.1).trans p.2.2⟩

instance : SMul Nat Canonical where
  smul n p := (n : Rat) • p

instance : SMul Int Canonical where
  smul n p := (n : Rat) • p

/-- The values of a form, as a function of the assignment. -/
def values (p : Canonical) : (Var → Rat) → Rat :=
  p.1.eval

theorem values_injective : Function.Injective values := fun p q h =>
  Subtype.ext (eq_of_eval_eq p.2.1 q.2.1 (p.2.2.trans q.2.2.symm) (congrFun h))

theorem values_smul (k : Rat) (p : Canonical) : (k • p).values = k • p.values :=
  funext (eval_scale k p.1)

theorem values_nsmul (n : Nat) (p : Canonical) : (n • p).values = n • p.values :=
  (values_smul n p).trans (Nat.cast_smul_eq_nsmul Rat n p.values)

theorem values_zsmul (n : Int) (p : Canonical) : (n • p).values = n • p.values :=
  (values_smul n p).trans (Int.cast_smul_eq_zsmul Rat n p.values)

instance : AddCommGroup Canonical :=
  values_injective.addCommGroup values (funext fun _ => rfl) (fun p q => funext (eval_add p.1 q.1))
    (fun p => funext (eval_neg p.1)) (fun p q => funext (eval_sub p.1 q.1))
    (fun p n => values_nsmul n p) (fun p n => values_zsmul n p)

/-- `values` as a homomorphism of groups. -/
def valuesHom : Canonical →+ ((Var → Rat) → Rat) where
  toFun := values
  map_zero' := funext fun _ => rfl
  map_add' p q := funext (eval_add p.1 q.1)

instance : Module Rat Canonical :=
  values_injective.module Rat valuesHom values_smul

end Canonical

/-- The laws of a vector space, for three vectors and two scalars. All are equalities of forms: of
constants, of lists of terms and of flags. -/
structure VectorSpaceLaws (p q r : LinearForm) (j k : Rat) : Prop where
  add_comm : p + q = q + p
  add_assoc : p + q + r = p + (q + r)
  zero_add : ofConstant 0 + p = p
  add_zero : p + ofConstant 0 = p
  sub_eq_add_neg : p - q = p + -q
  sub_add_cancel : p - q + q = p
  add_neg_cancel : p + -p = ofConstant 0
  scale_add : (p + q).scale k = p.scale k + q.scale k
  add_scale : p.scale (j + k) = p.scale j + p.scale k
  scale_scale : (p.scale j).scale k = p.scale (j * k)
  divide_scale : k ≠ 0 → (p.scale k).divide k = .ok p
  scale_divide : k ≠ 0 → (p.divide k).map (scale k) = .ok p

/-- Valid forms in canonical shape satisfy the laws of a vector space. -/
theorem vectorSpaceLaws (hp : p.WellFormed) (hq : q.WellFormed) (hr : r.WellFormed)
    (hpvalid : p.valid) (hqvalid : q.valid) (hrvalid : r.valid) (j k : Rat) :
    VectorSpaceLaws p q r j k := by
  let x : Canonical := ⟨p, hp, hpvalid⟩
  let y : Canonical := ⟨q, hq, hqvalid⟩
  let z : Canonical := ⟨r, hr, hrvalid⟩
  have form {a b : Canonical} (h : a = b) : a.1 = b.1 := congrArg Subtype.val h
  exact
    { add_comm := form (add_comm x y)
      add_assoc := form (add_assoc x y z)
      zero_add := form (zero_add x)
      add_zero := form (add_zero x)
      sub_eq_add_neg := form (sub_eq_add_neg x y)
      sub_add_cancel := form (sub_add_cancel x y)
      add_neg_cancel := form (add_neg_cancel x)
      scale_add := form (smul_add k x y)
      add_scale := form (add_smul j k x)
      scale_scale := form ((smul_smul k j x).trans (by rw [mul_comm]))
      divide_scale := fun hk => by
        rw [divide_eq_ok hk]
        exact congrArg Except.ok (form (inv_smul_smul₀ hk x))
      scale_divide := fun hk => by
        rw [divide_eq_ok hk]
        exact congrArg Except.ok (form (smul_inv_smul₀ hk x)) }

/-- All terms of the sum `(1 + 2x₁ - x₃) + (4 - 2x₁ + x₂) + (-5 - x₂ + x₃)` cancel, some in the first
addition and some in the second. -/
theorem vectorSpaceLaws_cancelling :
    VectorSpaceLaws (ofTerms 1 [(1, 2), (3, -1)]) (ofTerms 4 [(1, -2), (2, 1)])
        (ofTerms (-5) [(2, -1), (3, 1)]) 2 (-2) ∧
      ofTerms 1 [(1, 2), (3, -1)] + (ofTerms 4 [(1, -2), (2, 1)] + ofTerms (-5) [(2, -1), (3, 1)]) =
        ofConstant 0 ∧
      ((ofTerms 1 [(1, 2), (3, -1)]).divide (-2)).map (scale (-2)) =
        .ok (ofTerms 1 [(1, 2), (3, -1)]) := by
  have hlaws := vectorSpaceLaws (.ofTerms 1 [(1, 2), (3, -1)]) (.ofTerms 4 [(1, -2), (2, 1)])
    (.ofTerms (-5) [(2, -1), (3, 1)]) (valid_ofTerms ..) (valid_ofTerms ..) (valid_ofTerms ..) 2 (-2)
  refine ⟨hlaws, ?_, hlaws.scale_divide (by decide)⟩
  rw [← hlaws.add_assoc]
  decide +kernel

end SolvedForm.LinearForm
