import Pic18Boot.Verify.Vli

/-! # Numbers as bytes

`uECC_vli_bytesToNative` reads and `uECC_vli_nativeToBytes` writes a number of any number of bytes,
highest first (`value_vliBytesToNative`, `bigEndian_vliNativeToBytes`). -/

namespace Pic18Boot

variable {bytes : List UInt8} {native : Vli} {numBytes i : Nat}

/-- The bytes as digits. -/
def octet : Digits UInt8 where
  base := 2 ^ 8
  digit := UInt8.toNat
  one_lt_base := by decide
  digit_lt := UInt8.toNat_lt
  digit_inj _ _ := UInt8.toNat_inj.mp

@[simp] theorem octet_base : octet.base = 2 ^ 8 := rfl
@[simp] theorem octet_digit {b : UInt8} : octet.digit b = b.toNat := rfl

/-- The number the bytes spell, highest first. -/
def bigEndian (bytes : List UInt8) : Nat := octet.value bytes.reverse

theorem bigEndian_lt (h : bytes.length = numBytes) : bigEndian bytes < 2 ^ (8 * numBytes) := by
  have := octet.value_lt (l := bytes.reverse)
  rwa [List.length_reverse, h, octet_base, ← pow_mul] at this

theorem bigEndian_concat {b : UInt8} :
    bigEndian (bytes ++ [b]) = 2 ^ 8 * bigEndian bytes + b.toNat := by
  rw [bigEndian, List.reverse_append, List.reverse_singleton, List.singleton_append,
    Digits.value_cons, Nat.add_comm]
  rfl

theorem bigEndian_inj {cs : List UInt8} (hlen : bytes.length = cs.length)
    (h : bigEndian bytes = bigEndian cs) : bytes = cs :=
  List.reverse_injective (Digits.value_inj (by simpa using hlen) h)

/-- One pass of the loop puts a byte below those it has put, at place `b`. -/
theorem value_set_or {b K : Nat} {byte : UInt8} (hb : b / wordSize < native.length)
    (hval : word.value native = 2 ^ (8 * (b + 1)) * K) :
    word.value (native.set (b / wordSize) (native.getD (b / wordSize) 0 |||
      byte.toUInt32 <<< UInt32.ofNat (8 * (b % wordSize)))) =
      2 ^ (8 * b) * (2 ^ 8 * K + byte.toNat) := by
  obtain ⟨k, m, hm, rfl⟩ : ∃ k m, m < 4 ∧ b = 4 * k + m :=
    ⟨b / 4, b % 4, Nat.mod_lt _ (by decide), (Nat.div_add_mod b 4).symm⟩
  have hk : (4 * k + m) / wordSize = k := by simp only [wordSize]; omega
  have hmod : (4 * k + m) % wordSize = m := by simp only [wordSize]; omega
  rw [hk] at hb
  rw [hk, hmod]
  have hlt := byte.toNat_lt
  have hpow : 2 ^ (8 * (4 * k + m)) = 2 ^ (32 * k) * 2 ^ (8 * m) := by
    rw [← pow_add]
    congr 1
    omega
  have hstep : 2 ^ (8 * (4 * k + m + 1)) = 2 ^ (32 * k) * (2 ^ (8 * m) * 2 ^ 8) := by
    rw [← pow_add, ← pow_add]
    congr 1
    omega
  have hword : 2 ^ 32 = 2 ^ (8 * m) * 2 ^ 8 * 2 ^ (32 - 8 * m - 8) := by
    rw [← pow_add, ← pow_add]
    congr 1
    omega
  -- the word is clear up to the place of the byte
  obtain ⟨w, hw⟩ : ∃ w, (native.getD k 0).toNat = 2 ^ (8 * m) * 2 ^ 8 * w := by
    have hget := Digits.digit_getD (D := word) (l := native) (n := k) (b := 0) rfl
    rw [word_digit, word_pow, word_base, hval, hstep, Nat.mul_assoc,
      Nat.mul_div_cancel_left _ (by positivity), hword, Nat.mul_mod_mul_left] at hget
    exact ⟨_, hget⟩
  have hshift : (byte.toUInt32 <<< UInt32.ofNat (8 * m)).toNat = byte.toNat * 2 ^ (8 * m) := by
    have hle : 2 ^ (8 * m) ≤ 2 ^ 24 := Nat.pow_le_pow_right (by decide) (by omega)
    have := Nat.mul_le_mul (Nat.le_of_lt_succ hlt) hle
    rw [UInt32.toNat_shiftLeft, UInt32.toNat_ofNat', UInt8.toNat_toUInt32, Nat.shiftLeft_eq,
      Nat.mod_eq_of_lt (a := 8 * m) (by omega), Nat.mod_eq_of_lt (a := 8 * m) (by omega)]
    exact Nat.mod_eq_of_lt (by omega)
  have hor : (native.getD k 0 ||| byte.toUInt32 <<< UInt32.ofNat (8 * m)).toNat =
      (native.getD k 0).toNat + byte.toNat * 2 ^ (8 * m) := by
    have hbyte : byte.toNat * 2 ^ (8 * m) < 2 ^ (8 * m + 8) := by
      rw [pow_add, Nat.mul_comm]
      exact Nat.mul_lt_mul_of_pos_left hlt (by positivity)
    rw [UInt32.toNat_or, hshift, hw, ← pow_add, Nat.mul_comm _ w, ← Nat.shiftLeft_eq w,
      Nat.shiftLeft_or hbyte, Nat.shiftLeft_eq]
  have hset := Digits.value_set (D := word) (b := 0) (l := native)
    (a := native.getD k 0 ||| byte.toUInt32 <<< UInt32.ofNat (8 * m)) hb
  rw [word_digit, word_digit, word_pow, hor, hval, hstep] at hset
  rw [hpow]
  linear_combination hset

theorem vliBytesToNative_eq (h : numBytes ≤ bytes.length) :
    (vliBytesToNative bytes numBytes).length = (numBytes + 3) / 4 ∧
      word.value (vliBytesToNative bytes numBytes) = bigEndian (bytes.take numBytes) := by
  have hrule := Nat.fold_rule (n := numBytes)
    (s := vliClear ((numBytes + (wordSize - 1)) / wordSize))
    (f := fun i _ native =>
      let b := numBytes - 1 - i
      native.set (b / wordSize) (native.getD (b / wordSize) 0 |||
        (bytes.getD i 0).toUInt32 <<< UInt32.ofNat (8 * (b % wordSize))))
    (fun i native => native.length = (numBytes + 3) / 4 ∧
      word.value native = 2 ^ (8 * (numBytes - i)) * bigEndian (bytes.take i))
    ⟨length_vliClear, by rw [value_vliClear]; rfl⟩ fun i hi native hnative => ?_
  · rw [Nat.sub_self, Nat.mul_zero, pow_zero, Nat.one_mul] at hrule
    exact hrule
  · obtain ⟨hlen, hval⟩ := hnative
    rw [show numBytes - i = numBytes - 1 - i + 1 by omega] at hval
    refine ⟨by rw [List.length_set, hlen], ?_⟩
    rw [value_set_or (by simp only [wordSize]; omega) hval, List.take_add_one,
      List.getElem?_eq_getElem (by omega), Option.toList_some, bigEndian_concat,
      List.getD_eq_getElem _ _ (by omega), show numBytes - 1 - i = numBytes - (i + 1) by omega]

/-- Two numbers of 32 bytes one after the other. -/
theorem halves_eq (h : bytes.length = 64) :
    ((vliBytesToNative bytes 32).length = 8 ∧
      word.value (vliBytesToNative bytes 32) = bigEndian (bytes.take 32)) ∧
    (vliBytesToNative (bytes.drop 32) 32).length = 8 ∧
      word.value (vliBytesToNative (bytes.drop 32) 32) = bigEndian ((bytes.drop 32).take 32) :=
  ⟨vliBytesToNative_eq (by omega), vliBytesToNative_eq (by rw [List.length_drop]; omega)⟩

theorem length_vliNativeToBytes : (vliNativeToBytes numBytes native).length = numBytes := by
  simp [vliNativeToBytes]

theorem vliNativeToBytes_getElem (h : i < numBytes) :
    (vliNativeToBytes numBytes native)[i]? =
      some (UInt8.ofNat (word.value native / 2 ^ (8 * (numBytes - 1 - i)))) := by
  have hget := Digits.digit_getD (D := word) (l := native) (n := (numBytes - 1 - i) / 4) (b := 0)
    rfl
  simp only [vliNativeToBytes, List.getElem?_map, List.getElem?_range h, Option.map_some,
    Option.some.injEq, wordSize]
  generalize numBytes - 1 - i = b at *
  have hpow : 2 ^ (8 * b) = 2 ^ (32 * (b / 4)) * 2 ^ (8 * (b % 4)) := by
    rw [← pow_add]
    congr 1
    omega
  have hb : b % 4 < 4 := Nat.mod_lt _ (by decide)
  rw [word_digit, word_pow, word_base] at hget
  rw [← UInt8.toNat_inj, UInt32.toNat_toUInt8, UInt32.toNat_shiftRight, hget, UInt32.toNat_ofNat',
    UInt8.toNat_ofNat', Nat.mod_eq_of_lt (a := 8 * (b % 4)) (by omega),
    Nat.mod_eq_of_lt (a := 8 * (b % 4)) (by omega), Nat.shiftRight_eq_div_pow, hpow,
    ← Nat.div_div_eq_div_mul]
  -- the bits of the byte are within the word
  have hword : 2 ^ 32 = 2 ^ (8 * (b % 4)) * (2 ^ 8 * 2 ^ (32 - 8 * (b % 4) - 8)) := by
    rw [← pow_add, ← pow_add]
    congr 1
    omega
  rw [hword, Nat.mod_mul_right_div_self, Nat.mod_mul_right_mod]

theorem bigEndian_take (h : i ≤ numBytes) :
    bigEndian ((vliNativeToBytes numBytes native).take i) =
      word.value native / 2 ^ (8 * (numBytes - i)) % 2 ^ (8 * i) := by
  induction i with
  | zero => rw [List.take_zero, Nat.mul_zero, pow_zero, Nat.mod_one]; rfl
  | succ i ih =>
    rw [List.take_add_one, vliNativeToBytes_getElem h, Option.toList_some, bigEndian_concat,
      ih (Nat.le_of_succ_le h), UInt8.toNat_ofNat',
      show numBytes - (i + 1) = numBytes - 1 - i by omega]
    have hup : 2 ^ (8 * (numBytes - i)) = 2 ^ (8 * (numBytes - 1 - i)) * 2 ^ 8 := by
      rw [← pow_add]
      congr 1
      omega
    rw [hup, ← Nat.div_div_eq_div_mul, Nat.mul_succ, pow_add, Nat.mul_comm (2 ^ (8 * i)),
      Nat.mod_mul,
      Nat.add_comm]

theorem bigEndian_vliNativeToBytes :
    bigEndian (vliNativeToBytes numBytes native) = word.value native % 2 ^ (8 * numBytes) := by
  have h : bigEndian ((vliNativeToBytes numBytes native).take numBytes) = _ :=
    bigEndian_take (Nat.le_refl numBytes)
  rwa [List.take_of_length_le length_vliNativeToBytes.le, Nat.sub_self, Nat.mul_zero, pow_zero,
    Nat.div_one] at h

/-- Loading bytes and storing them again. -/
theorem vliNativeToBytes_bytesToNative (h : numBytes ≤ bytes.length) :
    vliNativeToBytes numBytes (vliBytesToNative bytes numBytes) = bytes.take numBytes := by
  have hlen : (bytes.take numBytes).length = numBytes := List.length_take_of_le h
  refine bigEndian_inj (length_vliNativeToBytes.trans hlen.symm) ?_
  rw [bigEndian_vliNativeToBytes, (vliBytesToNative_eq h).2, Nat.mod_eq_of_lt (bigEndian_lt hlen)]

end Pic18Boot
