import Mathlib.Data.Int.ModEq
import Mathlib.Data.Nat.Prime.Basic
import Mathlib.Tactic.Linarith

/-! # Inverses by halving

The binary algorithm for `x⁻¹` modulo an odd `m`: two numbers `a` and `b`, at first `x` and `m`, are
halved and subtracted until they are equal, and two more follow with `u * x ≡ a` and `v * x ≡ b`.
The product `a * b` at least halves in a pass, which bounds the passes; the greatest common divisor
is kept, so at the end `u * x ≡ gcd x m` (`loop_spec`). -/

namespace BinaryInverse

structure Vars where
  (a b u v : ℕ)

/-- Half of `u` modulo an odd `m`. -/
def half (m u : ℕ) : ℕ := if u % 2 = 0 then u / 2 else (u + m) / 2

/-- `u - v` modulo `m`. -/
def sub (m u v : ℕ) : ℕ := if u < v then u + m - v else u - v

def pass (m : ℕ) (s : Vars) : Vars :=
  if s.a % 2 = 0 then { s with a := s.a / 2, u := half m s.u }
  else if s.b % 2 = 0 then { s with b := s.b / 2, v := half m s.v }
  else if s.b < s.a then { s with a := (s.a - s.b) / 2, u := half m (sub m s.u s.v) }
  else { s with b := (s.b - s.a) / 2, v := half m (sub m s.v s.u) }

/-- The passes until `a` and `b` are equal, `none` when `fuel` tests do not suffice. -/
def loop (m : ℕ) : ℕ → Vars → Option ℕ
  | 0, _ => none
  | fuel + 1, s => if s.a = s.b then some s.u else loop m fuel (pass m s)

variable {m x a b u v n : ℕ} {s : Vars}

theorem half_lt (hm : m % 2 = 1) (hu : u < m) : half m u < m := by
  unfold half
  split <;> omega

theorem sub_lt (hu : u < m) (hv : v < m) : sub m u v < m := by
  unfold sub
  split <;> omega

theorem two_mul_half (hm : m % 2 = 1) : 2 * half m u ≡ u [MOD m] := by
  unfold half
  split
  · rw [show 2 * (u / 2) = u by omega]
  · rw [show 2 * ((u + m) / 2) = u + m by omega]
    exact Nat.add_modEq_right

theorem sub_add (hv : v < m) : sub m u v + v ≡ u [MOD m] := by
  unfold sub
  split
  · rw [show u + m - v + v = u + m by omega]
    exact Nat.add_modEq_right
  · rw [show u - v + v = u by omega]

theorem two_coprime (hm : m % 2 = 1) : Nat.Coprime m 2 :=
  (Nat.coprime_two_left.mpr (Nat.odd_iff.mpr hm)).symm

/-- What `u` says of `a`, its half says of the half of `a`. -/
theorem half_mul (hm : m % 2 = 1) (ha : a % 2 = 0) (h : u * x ≡ a [MOD m]) :
    half m u * x ≡ a / 2 [MOD m] := by
  refine Nat.ModEq.cancel_left_of_coprime (c := 2) (two_coprime hm) ?_
  rw [← Nat.mul_assoc, show 2 * (a / 2) = a by omega]
  exact ((two_mul_half hm).mul_right x).trans h

theorem sub_mul (hv : v < m) (hab : b ≤ a) (hu : u * x ≡ a [MOD m]) (hvx : v * x ≡ b [MOD m]) :
    sub m u v * x ≡ a - b [MOD m] := by
  refine Nat.ModEq.add_right_cancel hvx ?_
  rw [← Nat.add_mul, Nat.sub_add_cancel hab]
  exact ((sub_add hv).mul_right x).trans hu

theorem gcd_half (ha : a % 2 = 0) (hodd : (a.gcd b) % 2 = 1) : (a / 2).gcd b = a.gcd b := by
  have hb : b % 2 = 1 := by
    by_contra hb
    have := Nat.dvd_gcd (Nat.dvd_of_mod_eq_zero ha) (Nat.dvd_of_mod_eq_zero (by omega : b % 2 = 0))
    omega
  have h := Nat.Coprime.gcd_mul_left_cancel (a / 2) (Nat.coprime_two_left.mpr (Nat.odd_iff.mpr hb))
  rw [show 2 * (a / 2) = a by omega] at h
  exact h.symm

/-- The invariant of the loop for the inverse of `x`. -/
structure Inv (m x : ℕ) (s : Vars) : Prop where
  a_pos : 0 < s.a
  b_pos : 0 < s.b
  u_lt : s.u < m
  v_lt : s.v < m
  u_mul : s.u * x ≡ s.a [MOD m]
  v_mul : s.v * x ≡ s.b [MOD m]
  gcd_eq : s.a.gcd s.b = x.gcd m

theorem Inv.start (hm : 1 < m) (hx : 0 < x) : Inv m x { a := x, b := m, u := 1, v := 0 } where
  a_pos := hx
  b_pos := by simp only; omega
  u_lt := hm
  v_lt := by simp only; omega
  u_mul := by rw [Nat.one_mul]
  v_mul := by rw [Nat.zero_mul]; exact (Nat.modEq_zero_iff_dvd.mpr dvd_rfl).symm
  gcd_eq := rfl

theorem Inv.gcd_odd (h : Inv m x s) (hm : m % 2 = 1) : (s.a.gcd s.b) % 2 = 1 := by
  rw [h.gcd_eq]
  by_contra hodd
  have := (Nat.dvd_of_mod_eq_zero (by omega : (x.gcd m) % 2 = 0)).trans (Nat.gcd_dvd_right x m)
  omega

/-- A pass keeps the invariant and halves the product. -/
theorem Inv.pass (h : Inv m x s) (hm : m % 2 = 1) (hne : s.a ≠ s.b) :
    Inv m x (pass m s) ∧ 2 * ((pass m s).a * (pass m s).b) ≤ s.a * s.b := by
  have hodd := h.gcd_odd hm
  obtain ⟨ha, hb, hu, hv, hux, hvx, hgcd⟩ := h
  unfold BinaryInverse.pass
  split
  · rename_i heven
    refine ⟨⟨by simp only; omega, hb, half_lt hm hu, hv, half_mul hm heven hux, hvx, ?_⟩, ?_⟩
    · exact (gcd_half heven hodd).trans hgcd
    · simp only
      rw [← Nat.mul_assoc]
      exact Nat.mul_le_mul_right _ (by omega)
  · split
    · rename_i heven
      rw [Nat.gcd_comm] at hodd
      refine ⟨⟨ha, by simp only; omega, hu, half_lt hm hv, hux, half_mul hm heven hvx, ?_⟩, ?_⟩
      · rw [← hgcd, Nat.gcd_comm, gcd_half heven hodd, Nat.gcd_comm]
      · simp only
        rw [Nat.mul_left_comm]
        exact Nat.mul_le_mul_left _ (by omega)
    · split
      · rename_i hlt
        have heven : (s.a - s.b) % 2 = 0 := by omega
        have hsub : (s.a - s.b).gcd s.b = s.a.gcd s.b := Nat.gcd_sub_self_left hlt.le
        refine ⟨⟨by simp only; omega, hb, half_lt hm (sub_lt hu hv), hv,
          half_mul hm heven (sub_mul hv hlt.le hux hvx), hvx, ?_⟩, ?_⟩
        · rw [← hgcd, ← hsub]
          exact gcd_half heven (hsub ▸ hodd)
        · simp only
          rw [← Nat.mul_assoc]
          exact Nat.mul_le_mul_right _ (by omega)
      · have hlt : s.a < s.b := by omega
        have heven : (s.b - s.a) % 2 = 0 := by omega
        have hsub : (s.b - s.a).gcd s.a = s.a.gcd s.b := by
          rw [Nat.gcd_sub_self_left hlt.le, Nat.gcd_comm]
        refine ⟨⟨ha, by simp only; omega, hu, half_lt hm (sub_lt hv hu), hux,
          half_mul hm heven (sub_mul hu hlt.le hvx hux), ?_⟩, ?_⟩
        · rw [← hgcd, ← hsub, Nat.gcd_comm]
          exact gcd_half heven (hsub ▸ hodd)
        · simp only
          rw [Nat.mul_left_comm]
          exact Nat.mul_le_mul_left _ (by omega)

/-- The loop ends, within one test for each bit of the product. -/
theorem Inv.loop (h : Inv m x s) (hm : m % 2 = 1) (hfuel : s.a * s.b < 2 ^ n) :
    ∃ u, loop m (n + 1) s = some u ∧ u < m ∧ u * x ≡ x.gcd m [MOD m] := by
  induction n generalizing s with
  | zero =>
    have := Nat.mul_pos h.a_pos h.b_pos
    omega
  | succ n ih =>
    rw [BinaryInverse.loop]
    split
    · rename_i heq
      refine ⟨s.u, rfl, h.u_lt, ?_⟩
      rw [← h.gcd_eq, ← heq, Nat.gcd_self]
      exact h.u_mul
    · rename_i hne
      obtain ⟨hinv, hle⟩ := h.pass hm hne
      rw [Nat.pow_succ] at hfuel
      exact ih hinv (by omega)

/-- **The inverse**, up to the greatest common divisor. -/
theorem loop_spec (hm : m % 2 = 1) (h1 : 1 < m) (hx : 0 < x) (hfuel : x * m < 2 ^ n) :
    ∃ u, loop m (n + 1) { a := x, b := m, u := 1, v := 0 } = some u ∧ u < m ∧
      u * x ≡ x.gcd m [MOD m] :=
  (Inv.start h1 hx).loop hm hfuel

end BinaryInverse
