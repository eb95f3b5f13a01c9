import Mathlib.AlgebraicGeometry.EllipticCurve.Affine.Point
import Mathlib.Tactic.FieldSimp
import Mathlib.Tactic.LinearCombination

/-! # Jacobian coordinates on `y² = x³ + b`

A triple `(X, Y, Z)` with `Z ≠ 0` stands for the affine point `(X / Z², Y / Z³)`. The formulas of
the doubling and of the addition of two points with one `Z` give such triples again, for the sum in
the group of the curve, wherever the new `Z` is not 0; it is 0 exactly where the tangent is vertical or
the two points lie above each other. -/

open WeierstrassCurve

namespace Jacobian

variable {F : Type*} [Field F]

/-- The curve `y² = x³ + b`. -/
def curve (b : F) : Affine F := { a₁ := 0, a₂ := 0, a₃ := 0, a₄ := 0, a₆ := b }

variable {b x y x₁ y₁ x₂ y₂ X Y Z X₁ Y₁ X₂ Y₂ : F} {P Q : (curve b).Point}

theorem equation_iff : (curve b).Equation x y ↔ y ^ 2 = x ^ 3 + b := by
  rw [Affine.equation_iff]
  simp [curve]

theorem negY_eq : (curve b).negY x y = -y := by simp [Affine.negY, curve]

/-- A triple stands for a point. -/
def Represents (X Y Z : F) : (curve b).Point → Prop
  | .zero => False
  | .some x y _ => Z ≠ 0 ∧ X = x * Z ^ 2 ∧ Y = y * Z ^ 3

theorem Represents.z_ne (h : Represents X Y Z P) : Z ≠ 0 := by
  cases P with
  | zero => exact h.elim
  | some x y hP => exact h.1

theorem represents_one (h : (curve b).Nonsingular x y) :
    Represents x y 1 (Affine.Point.some x y h) := by simp [Represents]

/-- An affine point with any `Z`. -/
theorem Represents.scale (h : Represents x y 1 P) (hZ : Z ≠ 0) :
    Represents (x * Z ^ 2) (y * Z ^ 3) Z P := by
  cases P with
  | zero => exact h.elim
  | some x' y' hP =>
    obtain ⟨-, rfl, rfl⟩ := h
    exact ⟨hZ, by rw [one_pow, mul_one], by rw [one_pow, mul_one]⟩

/-- Two triples with one `Z` have equal `X` exactly for points above each other. -/
theorem Represents.x_eq_iff (hP : Represents X₁ Y₁ Z P) (hQ : Represents X₂ Y₂ Z Q) :
    X₁ = X₂ ↔ P = Q ∨ P = -Q := by
  cases P with
  | zero => exact hP.elim
  | some x₁ y₁ h₁ =>
    cases Q with
    | zero => exact hQ.elim
    | some x₂ y₂ h₂ =>
      obtain ⟨hZ, rfl, rfl⟩ := hP
      obtain ⟨-, rfl, rfl⟩ := hQ
      rw [← Affine.Point.X_eq_iff]
      exact mul_left_inj' (pow_ne_zero 2 hZ)

/-- A triple stands for one point only. -/
theorem Represents.unique (hP : Represents X Y Z P) (hQ : Represents X Y Z Q) : P = Q := by
  cases P with
  | zero => exact hP.elim
  | some x₁ y₁ h₁ =>
    cases Q with
    | zero => exact hQ.elim
    | some x₂ y₂ h₂ =>
      obtain ⟨hZ, hX, hY⟩ := hP
      obtain ⟨-, hX', hY'⟩ := hQ
      obtain rfl := mul_right_cancel₀ (pow_ne_zero 2 hZ) (hX.symm.trans hX')
      obtain rfl := mul_right_cancel₀ (pow_ne_zero 3 hZ) (hY.symm.trans hY')
      rfl

theorem Represents.neg (h : Represents X Y Z P) : Represents X (-Y) Z (-P) := by
  cases P with
  | zero => exact h.elim
  | some x y hP =>
    obtain ⟨hZ, rfl, rfl⟩ := h
    rw [Affine.Point.neg_some]
    exact ⟨hZ, rfl, by rw [negY_eq, neg_mul]⟩

variable [DecidableEq F]

/-- A triple has `Y = 0` exactly for a point that is its own inverse. -/
theorem Represents.y_eq_zero_iff (h2 : (2 : F) ≠ 0) (h : Represents X Y Z P) :
    Y = 0 ↔ P + P = 0 := by
  cases P with
  | zero => exact h.elim
  | some x y hP =>
    obtain ⟨hZ, rfl, rfl⟩ := h
    have hy : y * Z ^ 3 = 0 ↔ y = 0 := by simp [hZ]
    have hneg : y = (curve b).negY x y ↔ y = 0 := by
      rw [negY_eq, eq_neg_iff_add_eq_zero, ← two_mul]
      simp [h2]
    rw [hy, ← hneg]
    by_cases hvert : y = (curve b).negY x y
    · exact iff_of_true hvert (Affine.Point.add_self_of_Y_eq hvert)
    · refine iff_of_false hvert ?_
      rw [Affine.Point.add_self_of_Y_ne hvert]
      exact Affine.Point.some_ne_zero _

/-- Three halves of a square. -/
theorem slope_double (hvert : y ≠ (curve b).negY x y) :
    (curve b).slope x x y y = 3 * x ^ 2 / (2 * y) := by
  rw [Affine.slope_of_Y_ne rfl hvert, negY_eq]
  simp only [curve]
  ring_nf

/-- **Doubling.** `B` is `3/2 * X²`. -/
theorem Represents.double (h2 : (2 : F) ≠ 0) {B : F} (h : Represents X Y Z P) (hY : Y ≠ 0)
    (hB : 2 * B = 3 * X ^ 2) :
    Represents (B ^ 2 - 2 * (X * Y ^ 2)) (B * (X * Y ^ 2 - (B ^ 2 - 2 * (X * Y ^ 2))) - Y ^ 4)
      (Y * Z) (P + P) := by
  have hsum := (h.y_eq_zero_iff h2).not.mp hY
  cases P with
  | zero => exact h.elim
  | some x y hP =>
    obtain ⟨hZ, rfl, rfl⟩ := h
    have hy : y ≠ 0 := fun h => hY (by rw [h, zero_mul])
    have hvert : y ≠ (curve b).negY x y := fun h => hsum (Affine.Point.add_self_of_Y_eq h)
    have hB' : B = 3 / 2 * x ^ 2 * Z ^ 4 := by
      field_simp
      linear_combination hB
    rw [Affine.Point.add_self_of_Y_ne hvert]
    refine ⟨mul_ne_zero hY hZ, ?_, ?_⟩
    · rw [slope_double hvert, Affine.addX, hB']
      simp only [curve]
      field_simp
      ring
    · rw [slope_double hvert, Affine.addY, negY_eq, Affine.negAddY, Affine.addX, hB']
      simp only [curve]
      field_simp
      ring

/-- **Addition** of two points with one `Z`; `A` is the square of the difference of their `X`. -/
theorem Represents.add (hP : Represents X₁ Y₁ Z P) (hQ : Represents X₂ Y₂ Z Q) (hne : X₁ ≠ X₂)
    {A X₃ : F} (hA : A = (X₂ - X₁) ^ 2) (hX : X₃ = (Y₂ - Y₁) ^ 2 - X₁ * A - X₂ * A) :
    Represents X₃ ((Y₂ - Y₁) * (X₁ * A - X₃) - Y₁ * (X₂ * A - X₁ * A)) (Z * (X₂ - X₁)) (P + Q) := by
  cases P with
  | zero => exact hP.elim
  | some x₁ y₁ h₁ =>
    cases Q with
    | zero => exact hQ.elim
    | some x₂ y₂ h₂ =>
      obtain ⟨hZ, rfl, rfl⟩ := hP
      obtain ⟨-, rfl, rfl⟩ := hQ
      have hx : x₁ ≠ x₂ := fun h => hne (by rw [h])
      have hd : x₁ - x₂ ≠ 0 := sub_ne_zero.mpr hx
      have hd' : x₂ * Z ^ 2 - x₁ * Z ^ 2 ≠ 0 := sub_ne_zero.mpr hne.symm
      rw [Affine.Point.add_of_X_ne hx]
      subst hA hX
      refine ⟨mul_ne_zero hZ hd', ?_, ?_⟩
      · rw [Affine.slope_of_X_ne hx, Affine.addX]
        simp only [curve]
        field_simp
        ring
      · rw [Affine.slope_of_X_ne hx, Affine.addY, negY_eq, Affine.negAddY, Affine.addX]
        simp only [curve]
        field_simp
        ring

end Jacobian
