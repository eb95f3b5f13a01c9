import Pic18Boot.Model.Curve
import Pic18Boot.Verify.Primes
import Pic18Boot.Verify.VliMod

/-! # The fast reduction of secp256k1

`2 ^ 256` and `omega = 2 ^ 32 + 977` are congruent modulo `p`, so `vli_mmod_fast_secp256k1` folds
the upper half of a product onto the lower one, twice (`folded`), and counts what is carried out of
256 bits. The loop that takes the modulus off once for each carry drops the carry without looking at
what the subtraction gives: on a folded product from `2 ^ 256 + p` up to `2 * 2 ^ 256` one more
subtraction was due (`DropsCarry`). There the result is wrong, and nowhere else
(`vliMmodFastSecp256k1_iff`). -/

namespace Pic18Boot

variable {left right product result : Vli} {w carry : UInt32} {n k x : Nat}

/-- `2 ^ 256` modulo `fieldP`. -/
abbrev omega : ℕ := 2 ^ 32 + 977

theorem omega_add_fieldP : fieldP + omega = 2 ^ 256 := rfl

theorem value_secp256k1P : word.value secp256k1P = fieldP := rfl
theorem value_secp256k1N : word.value secp256k1N = orderN := rfl

@[simp] theorem length_secp256k1P : secp256k1P.length = 8 := rfl
@[simp] theorem length_secp256k1N : secp256k1N.length = 8 := rfl

theorem omegaWord_eq (h : carry.toNat ≤ 976) : (omegaWord w carry).2.toNat ≤ 976 ∧
    (omegaWord w carry).1.toNat + 2 ^ 32 * (omegaWord w carry).2.toNat =
      977 * w.toNat + carry.toNat := by
  have hw := w.toNat_lt
  have hp : ((0x3D1 : UInt64) * w.toUInt64 + carry.toUInt64).toNat =
      977 * w.toNat + carry.toNat := by
    rw [UInt64.toNat_add, UInt64.toNat_mul, UInt32.toNat_toUInt64, UInt32.toNat_toUInt64]
    simp only [UInt64.reduceToNat]
    omega
  have hhigh : (977 * w.toNat + carry.toNat) / 2 ^ 32 ≤ 976 := by omega
  simp only [omegaWord, UInt64.toNat_toUInt32, UInt64.toNat_shiftRight, hp, UInt64.reduceToNat,
    Nat.reduceMod, Nat.shiftRight_eq_div_pow]
  rw [Nat.mod_eq_of_lt (show (977 * w.toNat + carry.toNat) / 2 ^ 32 < 2 ^ 32 by omega)]
  exact ⟨hhigh, Nat.mod_add_div _ _⟩

theorem value_take_eight (h : 8 ≤ product.length) :
    word.value (product.take 8) = word.value product % 2 ^ 256 ∧
      word.value (product.drop 8) = word.value product / 2 ^ 256 := by
  have := Digits.value_take_drop (D := word) h
  rwa [word_pow] at this

/-- Multiplication by `omega` into the ten low words of `result`. -/
theorem omegaMultSecp256k1_eq (hr : right.length = 8) (hlen : result.length = 16) :
    (omegaMultSecp256k1 result right).length = 16 ∧
      word.value (omegaMultSecp256k1 result right) =
        omega * word.value right + 2 ^ 256 * 2 ^ 64 * word.value (result.drop 10) := by
  have hrule := ripple_value (D := word) (f := omegaWord) (l := right) (c := 0)
    (F := fun w => (977 * w.toNat : ℤ)) (V := fun l => (977 * word.value l : ℤ))
    (κ := fun c => c.toNat) (P := fun c => c.toNat ≤ 976) (by simp)
    (fun w l => by
      simp only [Digits.value_cons, word_digit]
      push_cast
      ring)
    (fun w c hc => by
      refine ⟨(omegaWord_eq hc).1, ?_⟩
      have := (omegaWord_eq (w := w) hc).2
      simp only [word_digit, word_base]
      exact_mod_cast this) (by decide)
  have hlow : word.value ((ripple omegaWord right 0).1 ++ [(ripple omegaWord right 0).2]) =
      977 * word.value right := by
    have := hrule.2
    simp only [UInt32.reduceToNat, Nat.cast_zero, add_zero] at this
    rw [value_concat, length_ripple, ← word_pow]
    exact_mod_cast this
  have hlowlen : ((ripple omegaWord right 0).1 ++ [(ripple omegaWord right 0).2]).length = 9 := by
    simp [hr]
  rw [omegaMultSecp256k1]
  generalize (ripple omegaWord right 0).1 ++ [(ripple omegaWord right 0).2] = low at *
  have hdrop : (low.drop 1).length = right.length := by simp [hlowlen, hr]
  have hsum := (vliAdd_eq hdrop).2
  have hsumlen := length_vliAdd hdrop
  have hparts := Digits.value_take_drop (D := word) (by omega : 1 ≤ low.length)
  rw [hdrop, hr] at hsumlen hsum
  rw [word_pow] at hparts
  have hten : (low.take 1 ++ (vliAdd (low.drop 1) right).1 ++
      [(vliAdd (low.drop 1) right).2]).length = 10 := by
    rw [List.length_append, List.length_append, List.length_take, hsumlen, hlowlen]
    rfl
  have hval : word.value (low.take 1 ++ (vliAdd (low.drop 1) right).1 ++
      [(vliAdd (low.drop 1) right).2]) = omega * word.value right := by
    rw [value_concat, List.length_append, hsumlen, Digits.value_append, List.length_take, hlowlen,
      word_pow, hparts.1]
    simp only [omega, Nat.reduceMul, Nat.reduceAdd, Nat.reduceLeDiff, Nat.min_eq_left]
      at hsum hparts ⊢
    omega
  refine ⟨by rw [List.length_append, hten, List.length_drop, hlen]; rfl, ?_⟩
  rw [Digits.value_append, hten, hval, word_pow, numWordsSecp256k1, ← pow_add]

/-- A difference modulo what the words hold. -/
theorem value_vliSub_mod (h : left.length = right.length) : word.value (vliSub left right).1 =
    (word.value left + (2 ^ (32 * left.length) - word.value right)) % 2 ^ (32 * left.length) := by
  have hl := value_lt (rfl : left.length = left.length)
  have hr := value_lt h.symm
  rcases Nat.lt_or_ge (word.value left) (word.value right) with hlt | hge
  · rw [(vliSub_of_lt h hlt).1, Nat.mod_eq_of_lt (by omega)]
    omega
  · rw [(vliSub_of_le h hge).1, Nat.mod_eq_sub_mod (by omega), Nat.mod_eq_of_lt (by omega)]
    omega

/-- Taking the modulus off `k` times is adding `k * omega`, modulo `2 ^ 256`. -/
theorem fold_vliSub (h : result.length = 8) :
    (Nat.fold k (fun _ _ result => (vliSub result secp256k1P).1) result).length = 8 ∧
      word.value (Nat.fold k (fun _ _ result => (vliSub result secp256k1P).1) result) =
        (word.value result + k * omega) % 2 ^ 256 := by
  refine Nat.fold_rule (P := fun i (r : Vli) =>
    r.length = 8 ∧ word.value r = (word.value result + i * omega) % 2 ^ 256) ⟨h, ?_⟩ ?_
  · have := value_lt h
    rw [Nat.zero_mul, Nat.add_zero, Nat.mod_eq_of_lt this]
  · rintro i - r ⟨hlen, hval⟩
    have hsame : r.length = secp256k1P.length := hlen
    refine ⟨(length_vliSub hsame).trans hlen, ?_⟩
    rw [value_vliSub_mod hsame, hlen, value_secp256k1P, hval, ← omega_add_fieldP]
    rw [Nat.mod_add_mod, Nat.add_sub_cancel_left, Nat.add_assoc, Nat.succ_mul]

/-- The product with its upper half folded onto the lower one, and what that carries over again. -/
def folded (x : ℕ) : ℕ :=
  x % 2 ^ 256 + omega * (x / 2 ^ 256) % 2 ^ 256 + omega * (omega * (x / 2 ^ 256) / 2 ^ 256)

/-- The carry that the reduction drops: 256 bits overflow by no less than the modulus. -/
def DropsCarry (x : ℕ) : Prop := 2 ^ 256 + fieldP ≤ folded x ∧ folded x < 2 * 2 ^ 256

instance : Decidable (DropsCarry x) := inferInstanceAs (Decidable (_ ∧ _))

theorem two_pow_modEq : 2 ^ 256 ≡ omega [MOD fieldP] := by
  rw [← omega_add_fieldP]
  exact Nat.add_modEq_left

theorem folded_modEq : folded x ≡ x [MOD fieldP] := by
  have hfold : ∀ y, y % 2 ^ 256 + omega * (y / 2 ^ 256) ≡ y [MOD fieldP] := fun y => by
    conv_rhs => rw [← Nat.mod_add_div y (2 ^ 256)]
    exact Nat.ModEq.add_left _ (two_pow_modEq.symm.mul_right _)
  rw [folded, Nat.add_assoc]
  exact ((hfold (omega * (x / 2 ^ 256))).add_left _).trans (hfold x)

/-- The carries off, and the modulus once more where the result exceeds it. -/
theorem carries_off {R k T V : ℕ} (hR : R < 2 ^ 256) (hT : T = R + 2 ^ 256 * k)
    (hbound : T < 2 * 2 ^ 256 + 2 ^ 68)
    (hV : V = (R + k * omega) % 2 ^ 256 ∧ V ≤ fieldP ∨ V + fieldP = (R + k * omega) % 2 ^ 256) :
    V ≤ fieldP ∧ (¬(2 ^ 256 + fieldP ≤ T ∧ T < 2 * 2 ^ 256) → ∃ j, T = V + fieldP * j) ∧
      (2 ^ 256 + fieldP ≤ T ∧ T < 2 * 2 ^ 256 → T = V + omega + fieldP * 2) := by
  have hk : k = 0 ∨ k = 1 ∨ k = 2 := by omega
  simp only [fieldP, omega] at *
  rcases hk with rfl | rfl | rfl
  · rcases hV with hV | hV
    · exact ⟨by omega, fun _ => ⟨0, by omega⟩, by omega⟩
    · exact ⟨by omega, fun _ => ⟨1, by omega⟩, by omega⟩
  · rcases hV with hV | hV
    · exact ⟨by omega, fun _ => ⟨1, by omega⟩, by omega⟩
    · exact ⟨by omega, fun _ => ⟨2, by omega⟩, by omega⟩
  · rcases hV with hV | hV
    · exact ⟨by omega, fun _ => ⟨2, by omega⟩, by omega⟩
    · exact ⟨by omega, fun _ => ⟨3, by omega⟩, by omega⟩

/-- The last comparison takes the modulus off what exceeds it. -/
theorem subtract_above (h : result.length = 8) :
    (if vliCmpUnsafe result secp256k1P > 0 then (vliSub result secp256k1P).1
        else result).length = 8 ∧
      (word.value (if vliCmpUnsafe result secp256k1P > 0 then (vliSub result secp256k1P).1
          else result) = word.value result ∧ word.value (if vliCmpUnsafe result secp256k1P > 0 then
          (vliSub result secp256k1P).1 else result) ≤ fieldP ∨
        word.value (if vliCmpUnsafe result secp256k1P > 0 then (vliSub result secp256k1P).1
          else result) + fieldP = word.value result) := by
  have hsame : result.length = secp256k1P.length := h
  have hcmp := vliCmpUnsafe_pos hsame
  rw [value_secp256k1P] at hcmp
  by_cases hgt : fieldP < word.value result
  · rw [if_pos (hcmp.mpr hgt), (vliSub_of_le hsame (by rw [value_secp256k1P]; omega)).1,
      value_secp256k1P]
    exact ⟨(length_vliSub hsame).trans h, Or.inr (by omega)⟩
  · rw [if_neg (hcmp.not.mpr hgt)]
    exact ⟨h, Or.inl ⟨rfl, by omega⟩⟩

/-- The carry words of the two sums, added up, and the second sum. -/
theorem folded_eq {L H Q q c c' R R' : ℕ} (hL : L < 2 ^ 256) (hH : H < 2 ^ 256)
    (hQ : Q = (omega * (omega * H / 2 ^ 256) + 2 ^ 256 * 2 ^ 64 * q) % 2 ^ 256)
    (hsum : R + 2 ^ 256 * c = L + omega * H % 2 ^ 256) (hsum' : R' + 2 ^ 256 * c' = R + Q) :
    folded (L + 2 ^ 256 * H) = R' + 2 ^ 256 * (c + c') ∧
      folded (L + 2 ^ 256 * H) < 2 * 2 ^ 256 + 2 ^ 68 := by
  have hlow : (L + 2 ^ 256 * H) % 2 ^ 256 = L := by omega
  have hhigh : (L + 2 ^ 256 * H) / 2 ^ 256 = H := by omega
  rw [folded, hlow, hhigh]
  simp only [omega] at *
  omega

/-- **The fast reduction.** Where no carry is dropped the result is congruent to the product and at
most the modulus; where one is dropped the result is short by `omega`. -/
theorem vliMmodFastSecp256k1_eq (h : product.length = 16) :
    (vliMmodFastSecp256k1 product).length = 8 ∧
      word.value (vliMmodFastSecp256k1 product) ≤ fieldP ∧
      (¬DropsCarry (word.value product) →
        word.value (vliMmodFastSecp256k1 product) ≡ word.value product [MOD fieldP]) ∧
      (DropsCarry (word.value product) →
        word.value (vliMmodFastSecp256k1 product) + omega ≡ word.value product [MOD fieldP]) := by
  obtain ⟨hlow, hhigh⟩ := value_take_eight (by omega : 8 ≤ product.length)
  have hlowlen : (product.take 8).length = 8 := by simp [h]
  have hhighlen : (product.drop 8).length = 8 := by simp [h]
  have hhighlt := value_lt hhighlen
  rw [vliMmodFastSecp256k1]
  simp only [numWordsSecp256k1]
  -- the upper half times omega
  have htmp := @omegaMultSecp256k1_eq (product.drop 8) (vliClear 8 ++ vliClear 8) hhighlen rfl
  rw [show word.value ((vliClear 8 ++ vliClear 8).drop 10) = 0 from rfl, Nat.mul_zero, Nat.add_zero,
    hhigh] at htmp
  generalize omegaMultSecp256k1 (vliClear 8 ++ vliClear 8) (product.drop 8) = tmp at *
  obtain ⟨htmplow, htmphigh⟩ := value_take_eight (by omega : 8 ≤ tmp.length)
  have htmplowlen : (tmp.take 8).length = 8 := by simp [htmp.1]
  have htmphighlen : (tmp.drop 8).length = 8 := by simp [htmp.1]
  -- what that carries into the upper half, times omega
  have hagain := @omegaMultSecp256k1_eq (tmp.drop 8) (vliClear 8 ++ product.drop 8) htmphighlen
    (by rw [List.length_append, hhighlen]; rfl)
  rw [htmphigh, htmp.2] at hagain
  generalize omegaMultSecp256k1 (vliClear 8 ++ product.drop 8) (tmp.drop 8) = product' at *
  obtain ⟨hagainlow, -⟩ := value_take_eight (by omega : 8 ≤ product'.length)
  have hagainlowlen : (product'.take 8).length = 8 := by simp [hagain.1]
  -- the two sums
  obtain ⟨hc, hsum⟩ := vliAdd_eq (hlowlen.trans htmplowlen.symm)
  have hsumlen := length_vliAdd (hlowlen.trans htmplowlen.symm)
  rw [hlowlen] at hsum hsumlen
  generalize vliAdd (product.take 8) (tmp.take 8) = r at *
  obtain ⟨hc', hsum'⟩ := vliAdd_eq (hsumlen.trans hagainlowlen.symm)
  have hsumlen' := length_vliAdd (hsumlen.trans hagainlowlen.symm)
  rw [hsumlen] at hsum' hsumlen'
  generalize vliAdd r.1 (product'.take 8) = r' at *
  have hcarry : (r.2 + r'.2).toNat = r.2.toNat + r'.2.toNat := by
    rw [UInt32.toNat_add]
    omega
  obtain ⟨hlen, hval⟩ := fold_vliSub (k := (r.2 + r'.2).toNat) hsumlen'
  generalize Nat.fold (r.2 + r'.2).toNat (fun _ _ result => (vliSub result secp256k1P).1) r'.1 =
    result at *
  obtain ⟨hreduced, hV⟩ := subtract_above hlen
  generalize (if vliCmpUnsafe result secp256k1P > 0 then (vliSub result secp256k1P).1
    else result) = V at *
  rw [hlow, htmplow, htmp.2] at hsum
  rw [hagainlow, hagain.2] at hsum'
  rw [hhigh] at hhighlt
  obtain ⟨hfold, hbound⟩ := folded_eq (Nat.mod_lt _ (by decide)) hhighlt rfl hsum hsum'
  rw [Nat.mod_add_div] at hfold hbound
  rw [hval, hcarry] at hV
  obtain ⟨hle, hkept, hdropped⟩ := carries_off (value_lt hsumlen') hfold hbound hV
  have hmul : ∀ v j, v ≡ v + fieldP * j [MOD fieldP] := fun v j =>
    (Nat.add_mul_mod_self_left v fieldP j).symm
  refine ⟨hreduced, hle, fun hdrop => ?_, fun hdrop => ?_⟩
  · obtain ⟨j, hj⟩ := hkept hdrop
    exact (hmul _ j).trans (hj ▸ folded_modEq)
  · exact (hmul _ 2).trans (hdropped hdrop ▸ folded_modEq)

/-- The fast reduction is right exactly where it drops no carry. -/
theorem vliMmodFastSecp256k1_iff (h : product.length = 16) :
    word.value (vliMmodFastSecp256k1 product) ≡ word.value product [MOD fieldP] ↔
      ¬DropsCarry (word.value product) := by
  obtain ⟨-, -, hkept, hdropped⟩ := vliMmodFastSecp256k1_eq h
  refine ⟨fun heq hdrop => ?_, hkept⟩
  have hzero : omega ≡ 0 [MOD fieldP] :=
    Nat.ModEq.add_left_cancel heq ((hdropped hdrop).trans (by rw [Nat.add_zero]))
  exact absurd hzero (by decide)

/-- A product of two numbers below the modulus. -/
def lossyProduct : Vli := [
  0x783fe25c, 0xfffffffd, 0xffffffff, 0xffffffff, 0xffffffff, 0xffffffff, 0xffffffff, 0xffffffff,
  0x2e8666d7, 0x256c1455, 0x6908cc5c, 0xe56d84a3, 0x70b2da21, 0x0131dd30, 0xffffafdb, 0x00000014]

/-- It loses a carry. -/
theorem lossyProduct_drops :
    word.value lossyProduct = 0xb21642c8590b21642c8590b21642c8590b21642c8590b21642c8590a770c16a *
        0x1e2fff8ccad1b7adf5a2011990b9cd6eaae6fca5c475cb5d3a72e133f36 ∧
      ¬word.value (vliMmodFastSecp256k1 lossyProduct) ≡ word.value lossyProduct [MOD fieldP] :=
  ⟨by decide, fun h => (vliMmodFastSecp256k1_iff rfl).mp h (by decide)⟩

theorem vliMmodFastSecp256k1_zero (h : product.length = 16) (h0 : word.value product = 0) :
    word.value (vliMmodFastSecp256k1 product) = 0 := by
  obtain rfl : product = vliClear 16 :=
    Digits.value_inj (h.trans rfl) (h0.trans value_vliClear.symm)
  decide

/-- The product of two numbers below the modulus, where no carry is dropped. -/
theorem vliMmodFastSecp256k1_mul (hp : product.length = 16) {a b : ℕ} (ha : a < fieldP)
    (hb : b < fieldP) (hval : word.value product = a * b) (hkeep : ¬DropsCarry (a * b)) :
    word.value (vliMmodFastSecp256k1 product) = a * b % fieldP := by
  obtain ⟨-, hle, hkept, -⟩ := vliMmodFastSecp256k1_eq hp
  have heq := hval ▸ hkept (hval ▸ hkeep)
  rcases hle.lt_or_eq with hlt | hfull
  · exact (Nat.mod_eq_of_lt hlt).symm.trans heq
  · -- the modulus itself is left over only from a multiple of it, and here that is 0
    rw [hfull] at heq
    have hdvd : fieldP ∣ a * b :=
      Nat.modEq_zero_iff_dvd.mp (heq.symm.trans (Nat.modEq_zero_iff_dvd.mpr dvd_rfl))
    have hzero : a * b = 0 := by
      rcases (Nat.Prime.dvd_mul prime_fieldP).mp hdvd with h | h
      · rw [Nat.eq_zero_of_dvd_of_lt h ha, Nat.zero_mul]
      · rw [Nat.eq_zero_of_dvd_of_lt h hb, Nat.mul_zero]
    rw [hzero, Nat.zero_mod]
    exact vliMmodFastSecp256k1_zero hp (hval.trans hzero)

end Pic18Boot
