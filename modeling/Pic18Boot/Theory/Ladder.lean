import Mathlib.Algebra.Field.ZMod
import Pic18Boot.Theory.BinaryInverse
import Pic18Boot.Theory.Jacobian

/-! # Multiples of a point by evaluation

Double-and-add in Jacobian coordinates on numbers below an odd prime `p`, written so that it can be
evaluated: a coordinate is computed before it is used (`force`). A run that ends gives coordinates
of the multiple (`ladder_represents`). -/

namespace Jacobian

/-- `k n`, with `n` evaluated first. -/
def force {α : Type*} (n : ℕ) (k : ℕ → α) : α :=
  match n with
  | 0 => k 0
  | m + 1 => k (m + 1)

theorem force_eq {α : Type*} {n : ℕ} {k : ℕ → α} : force n k = k n := by cases n <;> rfl

/-- The coordinates of a point, passed on one by one. -/
abbrev Cont (α : Type*) := ℕ → ℕ → ℕ → α

variable {α : Type*}

def doubleThen (p X Y Z : ℕ) (k : Cont α) : α :=
  force (Y * Y % p) fun A =>
  force (X * A % p) fun S =>
  force (BinaryInverse.half p (3 * (X * X) % p)) fun B =>
  force ((B * B + (p - S) + (p - S)) % p) fun X' =>
  force ((B * (S + (p - X')) + (p - A * A % p)) % p) fun Y' =>
  force (Y * Z % p) fun Z' => k X' Y' Z'

/-- The affine point `(x, y)` is added. -/
def addThen (p x y X Y Z : ℕ) (k : Cont α) : α :=
  force (Z * Z % p) fun ZZ =>
  force (x * ZZ % p) fun X₁ =>
  force (y * (ZZ * Z) % p) fun Y₁ =>
  force ((X + (p - X₁)) % p) fun D =>
  force (D * D % p) fun A =>
  force (X₁ * A % p) fun B =>
  force (X * A % p) fun C =>
  force ((Y + (p - Y₁)) % p) fun E =>
  force ((E * E + (p - B) + (p - C)) % p) fun X' =>
  force ((E * (B + (p - X')) + (p - Y₁ * (C + (p - B)) % p)) % p) fun Y' =>
  force (Z * D % p) fun Z' => k X' Y' Z'

/-- The bits of `u` below `k`, added to the multiple that `(X, Y, Z)` stands for. -/
def ladder (p x y u : ℕ) : ℕ → Cont (Option (ℕ × ℕ × ℕ))
  | 0, X, Y, Z => some (X, Y, Z)
  | k + 1, X, Y, Z => doubleThen p X Y Z fun X Y Z =>
    if Z = 0 then none
    else if u.testBit k then addThen p x y X Y Z fun X Y Z =>
      if Z = 0 then none else ladder p x y u k X Y Z
    else ladder p x y u k X Y Z

section Represents
variable {p x y u k m X Y Z : ℕ} {X' Y' Z' : ℕ} [Fact p.Prime] {b : ZMod p}
variable {P G : (curve b).Point}

theorem cast_sub {a : ℕ} (h : a ≤ p) : ((p - a : ℕ) : ZMod p) = -a := by
  rw [Nat.cast_sub h, ZMod.natCast_self, zero_sub]

theorem cast_sub_mod {a : ℕ} : ((p - a % p : ℕ) : ZMod p) = -a := by
  rw [cast_sub (Nat.mod_lt a (Fact.out : p.Prime).pos).le, ZMod.natCast_mod]

theorem cast_ne_zero (h : Z % p ≠ 0) : (Z : ZMod p) ≠ 0 := by
  rwa [Ne, ZMod.natCast_eq_zero_iff, Nat.dvd_iff_mod_eq_zero]

theorem doubleThen_represents (hodd : p % 2 = 1) (h : Represents (X : ZMod p) Y Z P)
    (k : Cont α) : ∃ X' Y' Z' : ℕ, doubleThen p X Y Z k = k X' Y' Z' ∧
      (Z' ≠ 0 → Represents (X' : ZMod p) Y' Z' (P + P)) := by
  simp only [doubleThen, force_eq]
  refine ⟨_, _, _, rfl, fun hZ => ?_⟩
  have hY : (Y : ZMod p) ≠ 0 := by
    have := cast_ne_zero hZ
    rw [Nat.cast_mul] at this
    exact left_ne_zero_of_mul this
  have h2 : (2 : ZMod p) ≠ 0 := by
    have h2p : ¬p ∣ 2 := fun hdvd => by
      have := Nat.le_of_dvd (by decide) hdvd
      have := (Fact.out : p.Prime).two_le
      omega
    rwa [← Nat.cast_ofNat, Ne, ZMod.natCast_eq_zero_iff]
  have hB : (2 : ZMod p) * (BinaryInverse.half p (3 * (X * X) % p) : ℕ) = 3 * (X : ZMod p) ^ 2 := by
    have := (ZMod.natCast_eq_natCast_iff _ _ _).mpr
      (BinaryInverse.two_mul_half (u := 3 * (X * X) % p) hodd)
    rw [ZMod.natCast_mod] at this
    push_cast at this
    rw [this]
    ring
  have hrep := h.double h2 hY hB
  convert hrep using 1
  · simp only [ZMod.natCast_mod, Nat.cast_add, Nat.cast_mul, cast_sub_mod]
    ring
  · simp only [ZMod.natCast_mod, Nat.cast_add, Nat.cast_mul, cast_sub_mod]
    ring
  · rw [ZMod.natCast_mod, Nat.cast_mul]

theorem addThen_represents (hG : Represents (x : ZMod p) y 1 G) (h : Represents (X : ZMod p) Y Z P)
    (k : Cont α) : ∃ X' Y' Z' : ℕ, addThen p x y X Y Z k = k X' Y' Z' ∧
      (Z' ≠ 0 → Represents (X' : ZMod p) Y' Z' (P + G)) := by
  simp only [addThen, force_eq]
  refine ⟨_, _, _, rfl, fun hZ => ?_⟩
  -- the affine point at the `Z` of the other
  have hGZ := hG.scale h.z_ne
  have hne : (x : ZMod p) * Z ^ 2 ≠ X := by
    intro heq
    have := cast_ne_zero hZ
    simp only [ZMod.natCast_mod, Nat.cast_add, Nat.cast_mul, cast_sub_mod] at this
    exact this (by rw [← heq]; ring)
  have hrep := hGZ.add h hne rfl rfl
  rw [add_comm P]
  convert hrep using 1
  · simp only [ZMod.natCast_mod, Nat.cast_add, Nat.cast_mul, cast_sub_mod]
    ring
  · simp only [ZMod.natCast_mod, Nat.cast_add, Nat.cast_mul, cast_sub_mod]
    ring
  · simp only [ZMod.natCast_mod, Nat.cast_add, Nat.cast_mul, cast_sub_mod]
    ring

/-- **What the ladder gives** are coordinates of the multiple, by the bits not yet used. -/
theorem ladder_represents (hodd : p % 2 = 1) (hG : Represents (x : ZMod p) y 1 G)
    (h : Represents (X : ZMod p) Y Z (m • G)) (hrun : ladder p x y u k X Y Z = some (X', Y', Z')) :
    Represents (X' : ZMod p) Y' Z' ((m * 2 ^ k + u % 2 ^ k) • G) := by
  induction k generalizing m X Y Z with
  | zero =>
    obtain ⟨rfl, rfl, rfl⟩ : X = X' ∧ Y = Y' ∧ Z = Z' := by simpa [ladder] using hrun
    simpa [Nat.mod_one] using h
  | succ k ih =>
    have hbit : m * 2 ^ (k + 1) + u % 2 ^ (k + 1) =
        (m + m + (u.testBit k).toNat) * 2 ^ k + u % 2 ^ k := by
      rw [Nat.mod_pow_succ, Nat.toNat_testBit]
      ring
    rw [hbit]
    obtain ⟨X₂, Y₂, Z₂, hdouble, hrep⟩ := doubleThen_represents hodd h
      (fun X Y Z => if Z = 0 then none else if u.testBit k then addThen p x y X Y Z fun X Y Z =>
        if Z = 0 then none else ladder p x y u k X Y Z else ladder p x y u k X Y Z)
    rw [ladder, hdouble] at hrun
    split at hrun
    · cases hrun
    rename_i hZ₂
    have hrep := hrep hZ₂
    rw [← add_nsmul] at hrep
    split at hrun
    · rename_i hset
      obtain ⟨X₃, Y₃, Z₃, hadd, hrep₃⟩ := addThen_represents hG hrep
        (fun X Y Z => if Z = 0 then none else ladder p x y u k X Y Z)
      rw [hadd] at hrun
      split at hrun
      · cases hrun
      rename_i hZ₃
      rw [hset, Bool.toNat_true]
      have hrep₃ := hrep₃ hZ₃
      rw [← succ_nsmul] at hrep₃
      exact ih hrep₃ hrun
    · rename_i hclear
      rw [Bool.eq_false_iff.mpr hclear, Bool.toNat_false, Nat.add_zero]
      exact ih hrep hrun

end Represents

end Jacobian
