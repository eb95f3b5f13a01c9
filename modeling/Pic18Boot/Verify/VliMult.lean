import Mathlib.Algebra.Order.BigOperators.Group.Finset
import Pic18Boot.Verify.Vli

/-! # The product by columns

`uECC_vli_mult` computes one digit of the product after the other, with the rest of the columns so
far in the accumulator. The three words of the accumulator never overflow (`multDigit_eq`), so what
is stored and what is in the accumulator always add up to the columns summed so far
(`Columns`). -/

namespace Pic18Boot

variable {left right result : Vli} {a b : UInt32} {r : MulAcc} {n k lo hi : Nat}

/-- The number in the accumulator. -/
def MulAcc.value (r : MulAcc) : Nat := r.r0.toNat + 2 ^ 32 * (r.r1.toNat + 2 ^ 32 * r.r2.toNat)

theorem toNat_mul_lt : a.toNat * b.toNat ≤ (2 ^ 32 - 1) * (2 ^ 32 - 1) :=
  Nat.mul_le_mul (Nat.le_sub_one_of_lt a.toNat_lt) (Nat.le_sub_one_of_lt b.toNat_lt)

theorem muladd_eq (h : r.value + a.toNat * b.toNat < 2 ^ 96) :
    (muladd a b r).value = r.value + a.toNat * b.toNat := by
  have hab := toNat_mul_lt (a := a) (b := b)
  have h0 := r.r0.toNat_lt
  have h1 := r.r1.toNat_lt
  have hp : (a.toUInt64 * b.toUInt64).toNat = a.toNat * b.toNat := by
    rw [UInt64.toNat_mul, UInt32.toNat_toUInt64, UInt32.toNat_toUInt64]
    omega
  have hr : (r.r1.toUInt64 <<< 32 ||| r.r0.toUInt64).toNat = r.r1.toNat * 2 ^ 32 + r.r0.toNat := by
    rw [UInt64.toNat_or, UInt64.toNat_shiftLeft, UInt32.toNat_toUInt64, UInt32.toNat_toUInt64]
    simp only [UInt64.reduceToNat, Nat.reduceMod]
    rw [Nat.mod_eq_of_lt (by rw [Nat.shiftLeft_eq]; omega), Nat.shiftLeft_or h0]
  generalize hq : a.toNat * b.toNat = q at *
  simp only [MulAcc.value, muladd] at *
  simp only [UInt32.toNat_add, UInt64.toNat_toUInt32, UInt64.toNat_shiftRight, UInt64.toNat_add,
    UInt64.lt_iff_toNat_lt, hp, hr, UInt64.reduceToNat, Nat.reduceMod, Nat.shiftRight_eq_div_pow]
  split
  · simp only [UInt32.reduceToNat]
    omega
  · simp only [UInt32.reduceToNat]
    omega

/-- The inner loop adds a range of products, as long as three words hold the sum. -/
theorem multDigit_eq {s : Nat}
    (hs : s = ∑ j ∈ Finset.range (hi - lo),
      (left.getD (lo + j) 0).toNat * (right.getD (k - (lo + j)) 0).toNat)
    (h : r.value + s < 2 ^ 96) : (multDigit left right k lo hi r).value = r.value + s := by
  rw [multDigit, hs]
  refine Nat.fold_rule (P := fun i (r' : MulAcc) => r'.value = r.value + ∑ j ∈ Finset.range i,
    (left.getD (lo + j) 0).toNat * (right.getD (k - (lo + j)) 0).toNat) (by simp) ?_
  intro i hi r' hr'
  rw [Finset.sum_range_succ, ← Nat.add_assoc, ← hr']
  refine muladd_eq (lt_of_le_of_lt ?_ h)
  rw [hr', hs, Nat.add_assoc, ← Finset.sum_range_succ]
  exact Nat.add_le_add_left (Finset.sum_le_sum_of_subset
    (Finset.range_subset_range.mpr (Nat.succ_le_of_lt hi))) _

/-- What the outer loops keep with the columns below `k` done: the digits stored and the
accumulator add up to these columns, and the accumulator is small. -/
structure Columns (left right : Vli) (n k : Nat) (st : Vli × MulAcc) : Prop where
  length_eq : st.1.length = k
  value_eq : word.value st.1 + 2 ^ (32 * k) * st.2.value = ∑ i ∈ Finset.range k,
    column (left.map UInt32.toNat) (right.map UInt32.toNat) i * (2 ^ 32) ^ i
  acc_le : st.2.value ≤ n * 2 ^ 32

theorem getD_map_toNat {i : Nat} : (left.map UInt32.toNat).getD i 0 = (left.getD i 0).toNat := by
  rw [← UInt32.toNat_zero, List.getD_map]

/-- A column has at most `n` products. -/
theorem sum_mul_le (h : hi - lo ≤ n) : ∑ j ∈ Finset.range (hi - lo),
    (left.getD (lo + j) 0).toNat * (right.getD (k - (lo + j)) 0).toNat ≤
      n * ((2 ^ 32 - 1) * (2 ^ 32 - 1)) := by
  calc _ ≤ ∑ _j ∈ Finset.range (hi - lo), (2 ^ 32 - 1) * (2 ^ 32 - 1) :=
        Finset.sum_le_sum fun _ _ => toNat_mul_lt
    _ = (hi - lo) * ((2 ^ 32 - 1) * (2 ^ 32 - 1)) := by rw [Finset.sum_const, Finset.card_range,
        smul_eq_mul]
    _ ≤ _ := Nat.mul_le_mul_right _ h

/-- One pass of an outer loop: column `k` over all places `lo..hi` where both have a digit. -/
theorem Columns.store {st : Vli × MulAcc} (h : Columns left right n k st) (hn : n < 2 ^ 31)
    (hhi : hi ≤ k + 1) (hcount : hi - lo ≤ n)
    (hout : ∀ i ≤ k, i < lo ∨ hi ≤ i → left.length ≤ i ∨ right.length ≤ k - i) :
    Columns left right n (k + 1) (multStore st.1 (multDigit left right k lo hi st.2)) := by
  obtain ⟨hlen, hval, hacc⟩ := h
  have hcol : column (left.map UInt32.toNat) (right.map UInt32.toNat) k =
      ∑ j ∈ Finset.range (hi - lo),
        (left.getD (lo + j) 0).toNat * (right.getD (k - (lo + j)) 0).toNat := by
    rw [column_eq_range hhi (by simpa using hout)]
    exact Finset.sum_congr rfl fun _ _ => by rw [getD_map_toNat, getD_map_toNat]
  have hle := @sum_mul_le left right n k lo hi hcount
  rw [← hcol] at hle
  have hdigit := multDigit_eq (r := st.2) hcol (by omega)
  generalize multDigit left right k lo hi st.2 = r at hdigit
  generalize hc : column (left.map UInt32.toNat) (right.map UInt32.toNat) k = c at hcol hle hdigit
  have hshift : (multStore st.1 r).2.value = r.value / 2 ^ 32 := by
    have h0 := r.r0.toNat_lt
    simp only [multStore, MulAcc.value, UInt32.reduceToNat]
    omega
  have hr0 : r.r0.toNat + 2 ^ 32 * (r.value / 2 ^ 32) = r.value := by
    have h0 := r.r0.toNat_lt
    simp only [MulAcc.value]
    omega
  refine ⟨by simp [multStore, hlen], ?_, ?_⟩
  · rw [Finset.sum_range_succ, ← hval, hshift]
    rw [multStore, value_concat, hlen]
    have hpow : (2 ^ 32) ^ k = 2 ^ (32 * k) := (pow_mul ..).symm
    have hpow' : 2 ^ (32 * (k + 1)) = 2 ^ (32 * k) * 2 ^ 32 := by rw [← pow_add]; rfl
    rw [hpow, hpow', hc, Nat.mul_assoc, Nat.add_assoc, ← Nat.mul_add, hr0, hdigit]
    ring
  · rw [hshift, hdigit]
    omega

/-- A number of no more than `2 ^ 31` words times another: all the digits of the product. -/
theorem value_vliMult (hl : left.length = n) (hr : right.length = n) (h0 : 0 < n)
    (hn : n < 2 ^ 31) : (vliMult left right n).length = 2 * n ∧
      word.value (vliMult left right n) = word.value left * word.value right := by
  have hlow : Columns left right n n (Nat.fold n (fun k _ st =>
      multStore st.1 (multDigit left right k 0 (k + 1) st.2))
      ([], { r0 := 0, r1 := 0, r2 := 0 })) := by
    refine Nat.fold_rule (P := fun k st => Columns left right n k st) ⟨rfl, ?_, Nat.zero_le _⟩ ?_
    · simp [MulAcc.value]
    · intro k hk st hst
      exact hst.store hn le_rfl (by omega) (by omega)
  obtain ⟨m, rfl⟩ := Nat.exists_eq_add_of_lt h0
  rw [Nat.zero_add] at *
  rw [vliMult]
  generalize Nat.fold (m + 1) _ _ = st at hlow
  have hhigh : Columns left right (m + 1) (m + 1 + (m + 1 - 1)) (Nat.fold (m + 1 - 1) (fun j _ st =>
      multStore st.1 (multDigit left right (m + 1 + j) (m + 1 + j + 1 - (m + 1)) (m + 1) st.2))
      st) := by
    refine Nat.fold_rule (P := fun j st => Columns left right (m + 1) (m + 1 + j) st) hlow ?_
    intro j hj st hst
    exact hst.store hn (by omega) (by omega) (by omega)
  generalize Nat.fold (m + 1 - 1) _ _ = st at hhigh
  obtain ⟨hlen, hval, -⟩ := hhigh
  -- the digits of the product have one place more than its columns
  have hlast :
      column (left.map UInt32.toNat) (right.map UInt32.toNat) (m + 1 + (m + 1 - 1)) = 0 := by
    have hnone := @column_eq_range (left.map UInt32.toNat) (right.map UInt32.toNat)
      (m + 1 + (m + 1 - 1)) 0 0 (Nat.zero_le _) (by simp [hl, hr]; omega)
    rwa [Finset.range_zero, Finset.sum_empty] at hnone
  have hprod := sum_column (B := 2 ^ 32) (l := left.map UInt32.toNat) (r := right.map UInt32.toNat)
    (n := m + 1 + (m + 1 - 1) + 1) (by simp [hl, hr]; omega)
  rw [Finset.sum_range_succ, hlast, Nat.zero_mul, Nat.add_zero, ← hval] at hprod
  have hbound : word.value left * word.value right < 2 ^ (32 * (m + 1 + (m + 1 - 1))) * 2 ^ 32 := by
    rw [← pow_add, show 32 * (m + 1 + (m + 1 - 1)) + 32 = 32 * (m + 1) + 32 * (m + 1) by omega,
      pow_add]
    exact Nat.mul_lt_mul'' (value_lt hl) (value_lt hr)
  have hacc : st.2.value < 2 ^ 32 := by
    refine Nat.lt_of_mul_lt_mul_left (a := 2 ^ (32 * (m + 1 + (m + 1 - 1)))) ?_
    exact lt_of_le_of_lt (Nat.le_add_left _ _) (hprod.trans_lt hbound)
  have hr0 : st.2.value = st.2.r0.toNat := by
    simp only [MulAcc.value] at hacc ⊢
    omega
  refine ⟨by simp [hlen]; omega, ?_⟩
  rw [value_concat, hlen, ← hr0, hprod]
  rfl

end Pic18Boot
