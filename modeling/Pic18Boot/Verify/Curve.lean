import Pic18Boot.Theory.DoubleAndAdd
import Pic18Boot.Theory.Jacobian
import Pic18Boot.Verify.Field

/-! # The point operations of `uECC.c` on secp256k1

`Coordinates x y z R` says that three numbers are Jacobian coordinates of the point `R`, or with `z`
zero of none: the formulas have no value for the point at infinity. Doubling and addition then are
`DoubleAndAdd.double` and `DoubleAndAdd.add` of the group, as partial operations
(`doubleJacobianSecp256k1_spec`, `addPoint_spec`). -/

open WeierstrassCurve

namespace Pic18Boot

/-- The points of secp256k1. -/
abbrev Point := (Jacobian.curve (7 : Fp)).Point

variable {f : Vli → Option Vli} {x1 y1 z1 x2 y2 z2 x3 y3 z3 tx ty rx ry z point : Vli}
variable {X Y Z X1 Y1 X2 Y2 Z1 : Fp} {R : Option Point} {P Q : Point}

theorem natCast_ne_zero {k : ℕ} (hpos : 0 < k) (hlt : k < fieldP) : (k : Fp) ≠ 0 := by
  rw [Ne, ZMod.natCast_eq_zero_iff]
  exact Nat.not_dvd_of_pos_of_lt hpos hlt

theorem two_ne_zero_fp : (2 : Fp) ≠ 0 := natCast_ne_zero (k := 2) (by decide) (by decide)

/-- There is no singular point on the curve. -/
theorem nonsingular_iff {x y : Fp} :
    (Jacobian.curve (7 : Fp)).Nonsingular x y ↔ y ^ 2 = x ^ 3 + 7 := by
  rw [← Jacobian.equation_iff, Affine.equation_iff_nonsingular_of_Δ_ne_zero]
  have hΔ : (Jacobian.curve (7 : Fp)).Δ = -((21168 : ℕ) : Fp) := by
    simp only [WeierstrassCurve.Δ, WeierstrassCurve.b₂, WeierstrassCurve.b₄, WeierstrassCurve.b₆,
      WeierstrassCurve.b₈, Jacobian.curve]
    norm_num
  rw [hΔ, neg_ne_zero]
  exact natCast_ne_zero (by decide) (by decide)

theorem nonsingular_of_modEq {x y : ℕ} (h : y ^ 2 ≡ x ^ 3 + 7 [MOD fieldP]) :
    (Jacobian.curve (7 : Fp)).Nonsingular x y := by
  have heq := (ZMod.natCast_eq_natCast_iff _ _ _).mpr h
  push_cast at heq
  exact nonsingular_iff.mpr heq

/-! ### Points in words -/

/-- The numbers are coordinates of `R`. -/
def Coordinates (x y z : Vli) (R : Option Point) : Prop :=
  ∃ X Y Z : Fp, IsFe x X ∧ IsFe y Y ∧ IsFe z Z ∧ R.elim (Z = 0) (Jacobian.Represents X Y Z)

/-- The numbers are the affine coordinates of `P`. -/
def IsAffine (ax ay : Vli) (P : Point) : Prop :=
  ∃ (x y : Fp) (h : (Jacobian.curve (7 : Fp)).Nonsingular x y),
    IsFe ax x ∧ IsFe ay y ∧ P = .some x y h

/-- The words hold the affine coordinates of `P`, one after the other. -/
def IsPoint (point : Vli) (P : Point) : Prop := IsAffine (point.take 8) (point.drop 8) P

theorem IsAffine.append {ax ay : Vli} (h : IsAffine ax ay P) : IsPoint (ax ++ ay) P := by
  obtain ⟨x, y, hP, hx, hy, rfl⟩ := h
  refine ⟨x, y, hP, ?_, ?_, rfl⟩
  · rwa [List.take_left' hx.length]
  · rwa [List.drop_left' hx.length]

theorem IsPoint.coordinates (h : IsPoint point P) {one : Vli} (hone : IsFe one 1) :
    Coordinates (point.take 8) (point.drop 8) one (some P) := by
  obtain ⟨x, y, hP, hx, hy, rfl⟩ := h
  exact ⟨x, y, 1, hx, hy, hone, Jacobian.represents_one hP⟩

/-! ### Doubling -/

theorem doubleJacobianSecp256k1_isFe (hf : Reduces f) (hx : IsFe x1 X) (hy : IsFe y1 Y)
    (hz : IsFe z1 Z) (hZ : Z ≠ 0)
    (h : doubleJacobianSecp256k1 (curveWith f) x1 y1 z1 = some (x3, y3, z3)) :
    ∃ B : Fp, 2 * B = 3 * X ^ 2 ∧ IsFe x3 (B ^ 2 - 2 * (X * Y ^ 2)) ∧
      IsFe y3 (B * (X * Y ^ 2 - (B ^ 2 - 2 * (X * Y ^ 2))) - Y ^ 4) ∧ IsFe z3 (Y * Z) := by
  rw [doubleJacobianSecp256k1, if_neg (by rwa [hz.isZero_iff])] at h
  simp only [Option.bind_eq_bind, Option.bind_eq_some_iff, Option.pure_def, Option.some.injEq,
    Prod.mk.injEq] at h
  obtain ⟨t5, h5, t4, h4, xx, hxx, t5', h5', zz, hzz, b2, hb2, yb, hyb, rfl, rfl, rfl⟩ := h
  have h5 := hy.square hf h5
  have h4 := hx.mult hf h5 h4
  have hxx := hx.square hf hxx
  have h5' := h5.square hf h5'
  have hzz := hy.mult hf hz hzz
  -- t1 = 3/2 x1^2 = B
  obtain ⟨B, hB, hb⟩ := ((hxx.modAdd hxx).modAdd hxx).half
  have hb2 := hb.square hf hb2
  have hx3 := (hb2.modSub h4).modSub h4
  have hyb := hb.mult hf (h4.modSub hx3) hyb
  have hy3 := hyb.modSub h5'
  have hX3 : B ^ 2 - 2 * (X * Y ^ 2) = B ^ 2 - X * Y ^ 2 - X * Y ^ 2 := by ring
  have hY4 : Y ^ 4 = (Y ^ 2) ^ 2 := by ring
  refine ⟨B, by rw [hB]; ring, ?_⟩
  rw [hX3, hY4]
  exact ⟨hx3, hy3, hzz⟩

theorem doubleJacobianSecp256k1_spec (hf : Reduces f) (hR : Coordinates x1 y1 z1 R)
    (h : doubleJacobianSecp256k1 (curveWith f) x1 y1 z1 = some (x3, y3, z3)) :
    Coordinates x3 y3 z3 (R.bind DoubleAndAdd.double) := by
  obtain ⟨X, Y, Z, hx, hy, hz, hR⟩ := hR
  cases R with
  | none =>
    rw [doubleJacobianSecp256k1, if_pos (hz.isZero_iff.mpr hR)] at h
    obtain ⟨rfl, rfl, rfl⟩ : x1 = x3 ∧ y1 = y3 ∧ z1 = z3 := by simpa using h
    exact ⟨X, Y, Z, hx, hy, hz, hR⟩
  | some P =>
    obtain ⟨B, hB, hx3, hy3, hz3⟩ := doubleJacobianSecp256k1_isFe hf hx hy hz hR.z_ne h
    refine ⟨_, _, _, hx3, hy3, hz3, ?_⟩
    have hzero := hR.y_eq_zero_iff two_ne_zero_fp
    rw [Option.bind_some, DoubleAndAdd.double]
    by_cases hY : Y = 0
    · rw [if_pos (hzero.mp hY), hY]
      exact zero_mul Z
    · rw [if_neg (hzero.not.mp hY)]
      exact hR.double two_ne_zero_fp hY hB

/-! ### Addition -/

theorem applyZ_isFe (hf : Reduces f) (hx : IsFe x1 X) (hy : IsFe y1 Y) (hz : IsFe z Z)
    (h : applyZ (curveWith f) x1 y1 z = some (x2, y2)) :
    IsFe x2 (X * Z ^ 2) ∧ IsFe y2 (Y * Z ^ 3) := by
  simp only [applyZ, Option.bind_eq_bind, Option.bind_eq_some_iff, Option.pure_def,
    Option.some.injEq, Prod.mk.injEq] at h
  obtain ⟨t1, h1, xx, hxx, t1', h1', yy, hyy, rfl, rfl⟩ := h
  have h1 := hz.square hf h1
  have h1' := h1.mult hf hz h1'
  exact ⟨hx.mult hf h1 hxx, pow_succ Z 2 ▸ hy.mult hf h1' hyy⟩

theorem xyczAdd_isFe (hf : Reduces f) (hx1 : IsFe x1 X1) (hy1 : IsFe y1 Y1) (hx2 : IsFe x2 X2)
    (hy2 : IsFe y2 Y2) {x1' y1' : Vli}
    (h : xyczAdd (curveWith f) x1 y1 x2 y2 = some (x1', y1', x3, y3)) :
    ∃ A X3 : Fp, A = (X2 - X1) ^ 2 ∧ X3 = (Y2 - Y1) ^ 2 - X1 * A - X2 * A ∧ IsFe x3 X3 ∧
      IsFe y3 ((Y2 - Y1) * (X1 * A - X3) - Y1 * (X2 * A - X1 * A)) := by
  simp only [xyczAdd, Option.bind_eq_bind, Option.bind_eq_some_iff, Option.pure_def,
    Option.some.injEq, Prod.mk.injEq] at h
  obtain ⟨a, ha, b, hb, c, hc, d, hd, e, he, k, hk, rfl, rfl, rfl, rfl⟩ := h
  have ha := (hx2.modSub hx1).square hf ha
  have hb := hx1.mult hf ha hb
  have hc := hx2.mult hf ha hc
  have hdy := hy2.modSub hy1
  have hd := hdy.square hf hd
  have hx3 := (hd.modSub hb).modSub hc
  have he := hy1.mult hf (hc.modSub hb) he
  have hk := hdy.mult hf (hb.modSub hx3) hk
  exact ⟨_, _, rfl, rfl, hx3, hk.modSub he⟩

/-- What the loop of `uECC_verify` does with a point: it is brought to the `z` of the accumulator
and added. -/
def addPoint (curve : UECCCurve) (point rx ry z : Vli) : Option (Vli × Vli × Vli) := do
  let (tx, ty) ← applyZ curve (point.take curve.numWords) (point.drop curve.numWords) z
  let tz := vliModSub rx tx curve.p
  let (_, _, rx, ry) ← xyczAdd curve tx ty rx ry
  let z ← vliModMultFast curve z tz
  pure (rx, ry, z)

theorem addPoint_spec (hf : Reduces f) (hR : Coordinates rx ry z R) (hP : IsPoint point P)
    (h : addPoint (curveWith f) point rx ry z = some (x3, y3, z3)) :
    Coordinates x3 y3 z3 (R.bind fun R => DoubleAndAdd.add R P) := by
  obtain ⟨X, Y, Z, hx, hy, hz, hR⟩ := hR
  obtain ⟨x, y, hns, hpx, hpy, rfl⟩ := hP
  simp only [addPoint, Option.bind_eq_bind, Option.bind_eq_some_iff, Option.pure_def,
    Option.some.injEq, Prod.mk.injEq] at h
  obtain ⟨⟨tx, ty⟩, ht, ⟨_, _, sx, sy⟩, hadd, sz, hsz, rfl, rfl, rfl⟩ := h
  obtain ⟨htx, hty⟩ := applyZ_isFe hf hpx hpy hz ht
  obtain ⟨A, X3, hA, hX3, hx3, hy3⟩ := xyczAdd_isFe hf htx hty hx hy hadd
  have hz3 := hz.mult hf (hx.modSub htx) hsz
  refine ⟨_, _, _, hx3, hy3, hz3, ?_⟩
  cases R with
  | none =>
    rw [show Z = 0 from hR]
    exact zero_mul _
  | some R =>
    -- the affine point at the `Z` of the accumulator
    have hPZ : Jacobian.Represents (x * Z ^ 2) (y * Z ^ 3) Z (.some x y hns) :=
      ⟨hR.z_ne, rfl, rfl⟩
    have heq := hR.x_eq_iff hPZ
    rw [Option.bind_some, DoubleAndAdd.add]
    by_cases hX : X = x * Z ^ 2
    · rw [if_pos (heq.mp hX), hX, sub_self]
      exact mul_zero Z
    · rw [if_neg (heq.not.mp hX), add_comm]
      exact hPZ.add hR (Ne.symm hX) hA hX3

end Pic18Boot
