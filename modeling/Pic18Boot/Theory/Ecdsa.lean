import Mathlib.Algebra.Field.ZMod
import Mathlib.Algebra.Module.NatInt
import Mathlib.GroupTheory.OrderOfElement
import Mathlib.Tactic.FieldSimp
import Mathlib.Tactic.Ring

/-! # ECDSA

Signatures over a group with a base point `g` of a prime order `n` and a map `X` from the points
that have a first coordinate to numbers. A pair is valid exactly when it solves the signing equation
for some nonce (`valid_iff_signed`); so what a key's owner signs is valid, and with each signature
another one is (`Valid.neg`). -/

namespace Ecdsa

variable {G : Type*} [AddCommGroup G] {n : ℕ}

/-- The multiple of the base point: `e / s` modulo the order. -/
def u₁ (n e s : ℕ) : ℕ := ((e : ZMod n) * (s : ZMod n)⁻¹).val

/-- The multiple of the public key: `r / s` modulo the order. -/
def u₂ (n r s : ℕ) : ℕ := ((r : ZMod n) * (s : ZMod n)⁻¹).val

/-- `(r, s)` is a signature of `e` under the public key `q`. -/
def Valid (n : ℕ) (X : G → Option ℕ) (g q : G) (e r s : ℕ) : Prop :=
  (0 < r ∧ r < n) ∧ (0 < s ∧ s < n) ∧ X (u₁ n e s • g + u₂ n r s • q) = some r

/-- The signing equation for the private key `d`, the nonce `k` and `r` the coordinate of
`k • g`. -/
def Signed (n : ℕ) (X : G → Option ℕ) (g : G) (d e k r s : ℕ) : Prop :=
  X (k • g) = some r ∧ (s * k : ZMod n) = e + r * d

variable {X : G → Option ℕ} {g q : G} {d e k r s : ℕ}

/-- Multiples of a point of order `n` depend on the scalar modulo `n`. -/
theorem nsmul_congr (hg : n • g = 0) {a b : ℕ} (h : (a : ZMod n) = b) : a • g = b • g := by
  have hmod := (ZMod.natCast_eq_natCast_iff a b n).mp h
  exact nsmul_eq_nsmul_iff_modEq.mpr (hmod.of_dvd (addOrderOf_dvd_of_nsmul_eq_zero hg))

variable [Fact n.Prime]

theorem nsmul_eq_self_iff (hg : n • g = 0) (h0 : g ≠ 0) : d • g = g ↔ d ≡ 1 [MOD n] := by
  rw [← addOrderOf_eq_prime hg h0, ← nsmul_eq_nsmul_iff_modEq, one_nsmul]

theorem nsmul_eq_neg_iff (hg : n • g = 0) (h0 : g ≠ 0) : d • g = -g ↔ d + 1 ≡ 0 [MOD n] := by
  have horder := addOrderOf_eq_prime hg h0
  rw [eq_neg_iff_add_eq_zero, ← succ_nsmul, Nat.modEq_zero_iff_dvd, ← horder,
    addOrderOf_dvd_iff_nsmul_eq_zero]

theorem natCast_ne_zero (h0 : 0 < s) (hs : s < n) : (s : ZMod n) ≠ 0 := by
  rw [Ne, ZMod.natCast_eq_zero_iff]
  exact Nat.not_dvd_of_pos_of_lt h0 hs

/-- What the verifier adds up, for the owner's public key. -/
theorem sum_eq (hg : n • g = 0) : u₁ n e s • g + u₂ n r s • d • g =
    ((e + r * d : ZMod n) * (s : ZMod n)⁻¹).val • g := by
  rw [← mul_nsmul', ← add_nsmul]
  refine nsmul_congr hg ?_
  rw [u₁, u₂]
  push_cast
  simp only [ZMod.natCast_val, ZMod.cast_id', id_eq]
  ring

/-- **A pair is valid exactly when some nonce gives it.** -/
theorem valid_iff_signed (hg : n • g = 0) : Valid n X g (d • g) e r s ↔
    (0 < r ∧ r < n) ∧ (0 < s ∧ s < n) ∧ ∃ k, Signed n X g d e k r s := by
  refine and_congr_right fun _ => and_congr_right fun ⟨h0, hs⟩ => ?_
  have hs0 := natCast_ne_zero h0 hs
  rw [sum_eq hg]
  constructor
  · intro h
    refine ⟨_, h, ?_⟩
    rw [ZMod.natCast_val, ZMod.cast_id', id_eq]
    field_simp
  · rintro ⟨k, hX, heq⟩
    rw [← hX, ← heq]
    congr 1
    refine nsmul_congr hg ?_
    rw [ZMod.natCast_val, ZMod.cast_id', id_eq]
    field_simp

/-- **Malleability**: with `(r, s)` the pair `(r, n - s)` is valid. -/
theorem Valid.neg (hg : n • g = 0) (hq : n • q = 0) (hX : ∀ P, X (-P) = X P)
    (h : Valid n X g q e r s) : Valid n X g q e r (n - s) := by
  obtain ⟨hr, ⟨h0, hs⟩, hv⟩ := h
  refine ⟨hr, ⟨by omega, by omega⟩, ?_⟩
  have hneg : ∀ {P : G}, n • P = 0 → ∀ a : ZMod n, (-a).val • P = -(a.val • P) := by
    intro P hP a
    rw [eq_neg_iff_add_eq_zero, ← add_nsmul, ← zero_nsmul P]
    refine nsmul_congr hP ?_
    push_cast
    simp
  have hcast : ((n - s : ℕ) : ZMod n) = -s := by
    rw [Nat.cast_sub hs.le, ZMod.natCast_self, zero_sub]
  rw [u₁, u₂, hcast, inv_neg, mul_neg, mul_neg, hneg hg, hneg hq, ← neg_add, hX]
  exact hv

end Ecdsa
