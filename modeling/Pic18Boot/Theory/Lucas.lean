import Mathlib.Data.List.Prime
import Mathlib.NumberTheory.LucasPrimality

/-! # Lucas's test, evaluated

`lucas_primality` asks for powers modulo `p`. Here they are computed by squaring, so that a test of
several hundred bits is a closed Boolean the kernel can evaluate. Tests whose factors are large are
chained: a factor is a number tested before. -/

namespace Lucas

/-- `a ^ e % m` for an exponent of at most `bits` bits. -/
def powMod (m : ℕ) : ℕ → ℕ → ℕ → ℕ
  | 0, _, _ => 1 % m
  | bits + 1, a, e => powMod m bits (a * a % m) (e / 2) * (if e % 2 = 0 then 1 else a) % m

/-- `a` has order `p - 1` modulo `p`, where `fs` are the prime factors of `p - 1`. -/
def test (bits p a : ℕ) (fs : List ℕ) : Bool :=
  fs.prod + 1 == p && 2 ≤ p && p ≤ 2 ^ bits && powMod p bits a (p - 1) == 1 &&
    fs.all fun q => powMod p bits a ((p - 1) / q) != 1

/-- What `test` is given: `p` has at most `bits` bits. -/
structure Certificate where
  bits : ℕ
  p : ℕ
  a : ℕ
  fs : List ℕ

/-- Every certificate passes the test, and its factors are known or certified before it. -/
def chain : List ℕ → List Certificate → Bool
  | _, [] => true
  | known, c :: cs =>
    test c.bits c.p c.a c.fs && c.fs.all known.contains && chain (c.p :: known) cs

variable {m bits a e p : ℕ} {fs : List ℕ}

theorem powMod_eq (h : e < 2 ^ bits) : powMod m bits a e = a ^ e % m := by
  induction bits generalizing a e with
  | zero =>
    obtain rfl : e = 0 := by simpa using h
    rw [pow_zero]
    rfl
  | succ bits ih =>
    have hsplit : a ^ e = (a * a) ^ (e / 2) * if e % 2 = 0 then 1 else a := by
      conv_lhs => rw [← Nat.div_add_mod e 2, pow_add, pow_mul, sq]
      rcases Nat.mod_two_eq_zero_or_one e with h0 | h1
      · rw [h0, pow_zero, if_pos rfl]
      · rw [h1, pow_one, if_neg one_ne_zero]
    have hhalf : e / 2 < 2 ^ bits := by
      rw [pow_succ] at h
      omega
    rw [powMod, ih hhalf, ← Nat.pow_mod, Nat.mod_mul_mod, ← hsplit]

theorem pow_eq_one_iff (hp : 2 ≤ p) : (a : ZMod p) ^ e = 1 ↔ a ^ e % p = 1 := by
  rw [← Nat.cast_pow, ← Nat.cast_one (R := ZMod p), ZMod.natCast_eq_natCast_iff',
    Nat.mod_eq_of_lt (show 1 < p from hp)]

/-- A number is prime when it passes the test with prime factors. -/
theorem prime_of_test (h : test bits p a fs) (hfs : ∀ q ∈ fs, q.Prime) : p.Prime := by
  simp only [test, Bool.and_eq_true, beq_iff_eq, decide_eq_true_eq, List.all_eq_true,
    bne_iff_ne] at h
  obtain ⟨⟨⟨⟨hprod, h2⟩, hbits⟩, hone⟩, hne⟩ := h
  have hlt : ∀ k ≤ p - 1, k < 2 ^ bits := by omega
  refine lucas_primality p a ?_ fun q hq hdvd => ?_
  · rwa [pow_eq_one_iff h2, ← powMod_eq (hlt _ le_rfl)]
  · rw [← hprod, Nat.add_sub_cancel] at hdvd
    obtain ⟨f, hf, hqf⟩ := (Prime.dvd_prod_iff hq.prime).mp hdvd
    obtain rfl := (Nat.prime_dvd_prime_iff_eq hq (hfs f hf)).mp hqf
    rw [ne_eq, pow_eq_one_iff h2, ← powMod_eq (hlt _ (Nat.div_le_self _ _))]
    exact hne q hf

/-- The numbers of a chain are prime when the numbers known at its start are. -/
theorem prime_of_chain (known : List ℕ) (cs : List Certificate) (hknown : ∀ q ∈ known, q.Prime)
    (h : chain known cs) : ∀ c ∈ cs, c.p.Prime := by
  induction cs generalizing known with
  | nil => simp
  | cons c cs ih =>
    simp only [chain, Bool.and_eq_true, List.all_eq_true, List.contains_iff_mem] at h
    obtain ⟨⟨htest, hfs⟩, h⟩ := h
    have hc : c.p.Prime := prime_of_test htest fun q hq => hknown q (hfs q hq)
    exact List.forall_mem_cons.mpr ⟨hc, ih _ (List.forall_mem_cons.mpr ⟨hc, hknown⟩) h⟩

end Lucas
