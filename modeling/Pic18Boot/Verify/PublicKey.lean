import Mathlib.FieldTheory.Finite.Basic
import Pic18Boot.Verify.Group

/-! # Public keys

`uECC_valid_public_key` accepts exactly the bytes of a point of the curve
(`uECCValidPublicKey_iff`), and `uECC_decompress` undoes `uECC_compress` on them
(`uECCDecompress_compress`): the square root it takes is the second coordinate or its negative, and
these differ in their last bit. -/

namespace Pic18Boot

open Partial

variable {f : Vli → Option Vli} {v w a l r p1 point : Vli} {X Y A L : Fp} {P : Point} {c : Nat}
variable {publicKey bytes out : List UInt8} {b : Bool}

/-! ### Points of the curve -/

theorem isFe_seven : IsFe secp256k1B 7 :=
  ⟨rfl, (ZMod.val_natCast_of_lt (n := fieldP) (a := 7) (by decide)).symm⟩

theorem xSideSecp256k1_isFe (hf : Reduces f) (hx : IsFe v X)
    (h : xSideSecp256k1 (curveWith f) v = some r) : IsFe r (X ^ 3 + 7) := by
  simp only [xSideSecp256k1, Option.bind_eq_bind, Option.bind_eq_some_iff, Option.pure_def,
    Option.some.injEq] at h
  obtain ⟨s, hs, t, ht, rfl⟩ := h
  have ht := (hx.square hf hs).mult hf hx ht
  exact pow_succ X 2 ▸ ht.modAdd isFe_seven

/-- **The test of a point** is whether its coordinates are those of a point of the curve. -/
theorem uECCValidPoint_iff (hf : Reduces f) (hlen : point.length = 16)
    (h : uECCValidPoint (curveWith f) point = some b) : b = true ↔ ∃ P, IsPoint point P := by
  have hxlen : (point.take 8).length = 8 := by rw [List.length_take]; omega
  have hylen : (point.drop 8).length = 8 := by rw [List.length_drop]; omega
  rw [uECCValidPoint] at h
  simp only [numWords_curveWith, p_curveWith, eccPointIsZero, vliIsZero_iff, ne_eq,
    vliCmpUnsafe_eq_one (length_secp256k1P.trans hxlen.symm),
    vliCmpUnsafe_eq_one (length_secp256k1P.trans hylen.symm), value_secp256k1P] at h
  have hrange : ∀ P, IsPoint point P →
      word.value (point.take 8) < fieldP ∧ word.value (point.drop 8) < fieldP := by
    rintro P ⟨x, y, -, hx, hy, -⟩
    exact ⟨hx.lt, hy.lt⟩
  split at h
  · rename_i hzero
    obtain rfl := Option.some_inj.mp h
    refine iff_of_false Bool.false_ne_true ?_
    rintro ⟨P, x, y, hns, hx, hy, -⟩
    -- the point `(0, 0)` is not on the curve
    rw [← List.take_append_drop 8 point, Digits.value_append, hx.value, hy.value] at hzero
    have hx0 : x = 0 := (ZMod.val_eq_zero x).mp (by omega)
    have hy0 : y = 0 := by
      rw [hxlen, word_pow, hx0, ZMod.val_zero, Nat.zero_add] at hzero
      exact (ZMod.val_eq_zero y).mp ((Nat.mul_eq_zero.mp hzero).resolve_left (by positivity))
    rw [nonsingular_iff, hx0, hy0, zero_pow two_ne_zero, zero_pow three_ne_zero, zero_add] at hns
    exact natCast_ne_zero (k := 7) (by decide) (by decide) hns.symm
  split at h
  · rename_i hbig
    obtain rfl := Option.some_inj.mp h
    refine iff_of_false Bool.false_ne_true ?_
    rintro ⟨P, hP⟩
    have := hrange P hP
    omega
  · rename_i hsmall
    rw [not_or, not_not, not_not] at hsmall
    simp only [Option.bind_eq_bind, Option.bind_eq_some_iff, Option.pure_def,
      Option.some.injEq] at h
    obtain ⟨t1, ht1, t2, ht2, rfl⟩ := h
    have hx := isFe_of_lt hxlen hsmall.1
    have hy := isFe_of_lt hylen hsmall.2
    rw [(hy.square hf ht1).equal_iff (xSideSecp256k1_isFe hf hx ht2)]
    constructor
    · intro heq
      exact ⟨_, _, _, nonsingular_iff.mpr heq, hx, hy, rfl⟩
    · rintro ⟨P, x, y, hns, hx', hy', -⟩
      rw [hx'.value, hy'.value, ZMod.natCast_zmod_val, ZMod.natCast_zmod_val]
      exact nonsingular_iff.mp hns

/-! ### Square roots -/

/-- The loop has taken the bits above its counter; it stops with the two lowest left. -/
theorem modSqrtLoop_isFe (hf : Reduces f) (ha : IsFe a A) (hc : 0 < c)
    (hl : IsFe l (A ^ (word.value p1 / 2 ^ (c + 1))))
    (h : modSqrtLoop (curveWith f) p1 a c l = some r) : IsFe r (A ^ (word.value p1 / 4)) := by
  obtain ⟨c, rfl⟩ := Nat.exists_eq_add_of_lt hc
  rw [Nat.zero_add] at *
  induction c generalizing l with
  | zero =>
    obtain rfl := Option.some_inj.mp h
    exact hl
  | succ i ih =>
    rw [modSqrtLoop] at h
    obtain ⟨s, hs, h⟩ := Option.bind_eq_some_iff.mp h
    have hs := hl.square hf hs
    have hbit := DoubleAndAdd.div_two_pow (word.value p1) (i + 2)
    rw [← vliTestBit_eq] at hbit
    rw [← pow_mul, Nat.mul_comm] at hs
    by_cases hset : vliTestBit p1 (i + 2)
    · rw [if_pos hset] at h
      obtain ⟨t, ht, h⟩ := Option.bind_eq_some_iff.mp h
      have ht := hs.mult hf ha ht
      rw [← pow_succ] at ht
      rw [hset, Bool.toNat_true] at hbit
      exact ih (Nat.succ_pos i) (hbit ▸ ht) h
    · rw [if_neg hset] at h
      rw [Bool.eq_false_iff.mpr hset, Bool.toNat_false, Nat.add_zero] at hbit
      exact ih (Nat.succ_pos i) (hbit ▸ hs) h

theorem modSqrtDefault_isFe (hf : Reduces f) (ha : IsFe a A)
    (h : modSqrtDefault (curveWith f) a = some r) : IsFe r (A ^ ((fieldP + 1) / 4)) := by
  obtain ⟨hval, -⟩ := vliAdd_spec
    (show secp256k1P.length = ((vliClear 8).set 0 1).length from rfl)
  have hp1 : word.value (vliAdd secp256k1P ((vliClear 8).set 0 1)).1 = fieldP + 1 := by
    rw [hval]
    decide
  have hbits : vliNumBits (vliAdd secp256k1P ((vliClear 8).set 0 1)).1 = 256 := by
    rw [vliNumBits_eq, hp1]
    decide +kernel
  rw [modSqrtDefault] at h
  simp only [numWords_curveWith, p_curveWith, hbits] at h
  rw [← hp1]
  refine modSqrtLoop_isFe hf ha (by decide) ?_ h
  rw [hp1, show (fieldP + 1) / 2 ^ (256 - 1 + 1) = 0 by decide, pow_zero]
  exact isFe_one

/-- The power is a root of every square. -/
theorem pow_quarter_sq : ((Y ^ 2) ^ ((fieldP + 1) / 4)) ^ 2 = Y ^ 2 := by
  by_cases hY : Y = 0
  · rw [hY, zero_pow two_ne_zero, zero_pow (by decide), zero_pow two_ne_zero]
  · have hexp : 2 * ((fieldP + 1) / 4 * 2) = fieldP - 1 + 2 := by decide
    rw [← pow_mul, ← pow_mul, hexp, pow_add, ZMod.pow_card_sub_one_eq_one hY, one_mul]

/-! ### Compression -/

/-- A number and its negative below an odd modulus differ in parity, unless they are 0. -/
theorem eq_of_parity {R : Fp} (h : R = Y ∨ R = -Y) :
    (if R.val % 2 ≠ Y.val % 2 then fieldP - R.val else R.val) = Y.val := by
  have hodd : fieldP % 2 = 1 := by decide
  have hlt := ZMod.val_lt Y
  rcases h with rfl | rfl
  · rw [if_neg (not_not.mpr rfl)]
  · by_cases hY : Y = 0
    · rw [hY, neg_zero, if_neg (not_not.mpr rfl)]
    · have hneg : (-Y).val = fieldP - Y.val := by
        have : NeZero Y := ⟨hY⟩
        exact ZMod.val_neg_of_ne_zero Y
      have hpos : Y.val ≠ 0 := by rwa [Ne, ZMod.val_eq_zero]
      rw [hneg, if_pos (by omega)]
      omega

/-- The last byte tells the parity. -/
theorem bigEndian_mod_two (h : 0 < bytes.length) :
    bigEndian bytes % 2 = (bytes.getD (bytes.length - 1) 0).toNat % 2 := by
  obtain ⟨cs, b, rfl⟩ := List.eq_nil_or_concat' bytes |>.resolve_left (List.ne_nil_of_length_pos h)
  rw [bigEndian_concat, List.length_append, List.length_singleton, Nat.add_sub_cancel,
    List.getD_append_right _ _ _ _ (Nat.le_refl _), Nat.sub_self, List.getD_cons_zero]
  omega

theorem low_bit (v : Vli) : (v.getD 0 0 &&& 0x01).toNat = word.value v % 2 := by
  have hget := Digits.digit_getD (D := word) (l := v) (n := 0) (b := 0) rfl
  rw [pow_zero, Nat.div_one, word_digit, word_base] at hget
  rw [UInt32.toNat_and, hget, show (0x01 : UInt32).toNat = 1 from rfl, Nat.and_one_is_mod]
  omega

theorem prefix_bit (k : UInt8) :
    ((2 + (k &&& 0x01)) &&& 0x01).toUInt32.toNat = k.toNat % 2 := by
  rw [UInt8.toNat_toUInt32, UInt8.toNat_and, UInt8.toNat_add, UInt8.toNat_and,
    show (0x01 : UInt8).toNat = 1 from rfl, show (2 : UInt8).toNat = 2 from rfl,
    Nat.and_one_is_mod, Nat.and_one_is_mod]
  omega

/-- **Decompression** of the compressed key of a point gives the key again. -/
theorem uECCDecompress_compress (hf : Reduces f) (hlen : publicKey.length = 64)
    (hkey : IsPoint (publicPoint curveSecp256k1 publicKey) P)
    (h : uECCDecompress (curveWith f) (uECCCompress curveSecp256k1 publicKey) = some out) :
    out = publicKey := by
  obtain ⟨⟨hxlen, hx⟩, hylen, hy⟩ := halves_eq hlen
  obtain ⟨X, Y, hns, hX, hY, -⟩ := hkey
  have hpub : publicPoint curveSecp256k1 publicKey =
      vliBytesToNative publicKey 32 ++ vliBytesToNative (publicKey.drop 32) 32 := rfl
  rw [hpub, List.take_left' hxlen] at hX
  rw [hpub, List.drop_left' hxlen] at hY
  -- the bytes of `x` are loaded again
  have hload : vliBytesToNative (publicKey.take 32) 32 = vliBytesToNative publicKey 32 := by
    obtain ⟨hlen', hval'⟩ := vliBytesToNative_eq
      (show 32 ≤ (publicKey.take 32).length by rw [List.length_take]; omega)
    refine Digits.value_inj (D := word) (hlen'.trans hxlen.symm) ?_
    rw [hval', hx, List.take_take, Nat.min_self]
  simp only [uECCDecompress, uECCCompress, List.drop_succ_cons, List.drop_zero, numBytes_curveWith,
    show curveSecp256k1.numBytes = 32 from rfl, hload, Option.bind_eq_bind, Option.bind_eq_some_iff,
    Option.pure_def, Option.some.injEq, p_curveWith, List.getD_cons_zero] at h
  obtain ⟨s, hs, y, hroot, rfl⟩ := h
  have hs := xSideSecp256k1_isFe hf hX hs
  rw [← nonsingular_iff.mp hns] at hs
  have hroot := modSqrtDefault_isFe hf hs hroot
  have hsign := sq_eq_sq_iff_eq_or_eq_neg.mp (pow_quarter_sq (Y := Y))
  generalize (Y ^ 2) ^ ((fieldP + 1) / 4) = R at hroot hsign
  have hdrop : (publicKey.drop 32).length = 32 := by rw [List.length_drop]; omega
  have hyval : bigEndian (publicKey.drop 32) = Y.val := by
    rw [← hY.value, hy, List.take_of_length_le hdrop.le]
  -- the prefix holds the parity of the second coordinate
  have hparity : y.getD 0 0 &&& 0x01 ≠
      ((2 + (publicKey.getD (32 * 2 - 1) 0 &&& 0x01)) &&& 0x01).toUInt32 ↔
        R.val % 2 ≠ Y.val % 2 := by
    have hlast := bigEndian_mod_two (show 0 < (publicKey.drop 32).length by omega)
    rw [hdrop, hyval, List.getD_eq_getElem?_getD, List.getElem?_drop,
      ← List.getD_eq_getElem?_getD] at hlast
    rw [Ne, ← UInt32.toNat_inj, low_bit, prefix_bit, hroot.value, hlast]
  have hchosen : word.value (if y.getD 0 0 &&& 0x01 ≠
      ((2 + (publicKey.getD (32 * 2 - 1) 0 &&& 0x01)) &&& 0x01).toUInt32 then
        (vliSub secp256k1P y).1 else y) = Y.val := by
    rw [← eq_of_parity hsign]
    simp only [hparity]
    split
    · rw [(vliSub_of_le (length_secp256k1P.trans hroot.length.symm)
        (value_secp256k1P ▸ hroot.lt.le)).1, value_secp256k1P, hroot.value]
    · exact hroot.value
  have hybytes : ∀ v : Vli, word.value v = Y.val → vliNativeToBytes 32 v = publicKey.drop 32 := by
    intro v hv
    refine bigEndian_inj (length_vliNativeToBytes.trans hdrop.symm) ?_
    rw [bigEndian_vliNativeToBytes, hv, hyval]
    exact Nat.mod_eq_of_lt (lt_of_lt_of_le (ZMod.val_lt Y) (by decide))
  rw [vliNativeToBytes_bytesToNative (by omega), hybytes _ hchosen, List.take_append_drop]

/-! ### The builds -/

theorem xSideSecp256k1_yields (hf : Returns f) (hv : v.length = 8) :
    Yields (xSideSecp256k1 (curveWith f) v) (·.length = 8) := by
  refine (vliModMultFast_yields hf hv hv).bind fun s hs => ?_
  refine (vliModMultFast_yields hf hs hv).bind fun t ht => ?_
  exact .some (length_vliModAdd ht isFe_seven.length length_secp256k1P)

theorem uECCValidPoint_yields (hf : Returns f) (hlen : point.length = 16) :
    Yields (uECCValidPoint (curveWith f) point) fun _ => True := by
  have hxlen : (point.take 8).length = 8 := by rw [List.length_take]; omega
  have hylen : (point.drop 8).length = 8 := by rw [List.length_drop]; omega
  rw [uECCValidPoint]
  split
  · exact .some trivial
  split
  · exact .some trivial
  · refine (vliModMultFast_yields hf hylen hylen).bind fun s _ => ?_
    exact (xSideSecp256k1_yields hf hxlen).bind fun t _ => .some trivial

theorem modSqrtLoop_yields (hf : Returns f) (ha : a.length = 8) (hl : l.length = 8) :
    Yields (modSqrtLoop (curveWith f) p1 a c l) (·.length = 8) := by
  induction c generalizing l with
  | zero => exact .some hl
  | succ c ih =>
    cases c with
    | zero => exact .some hl
    | succ i =>
      rw [modSqrtLoop]
      refine (vliModMultFast_yields hf hl hl).bind fun s hs => ?_
      by_cases hset : vliTestBit p1 (i + 2)
      · rw [if_pos hset]
        exact (vliModMultFast_yields hf hs ha).bind fun t ht => ih ht
      · rw [if_neg hset]
        exact ih hs

theorem uECCDecompress_yields (hf : Returns f) (hlen : 33 ≤ bytes.length) :
    Yields (uECCDecompress (curveWith f) bytes) fun _ => True := by
  obtain ⟨hxlen, -⟩ := vliBytesToNative_eq
    (show 32 ≤ (bytes.drop 1).length by rw [List.length_drop]; omega)
  refine (xSideSecp256k1_yields hf hxlen).bind fun s hs => ?_
  exact (modSqrtLoop_yields hf hs rfl).bind fun y _ => .some trivial

section Refines
variable {g : Vli → Option Vli} (hfg : ∀ product, Refines (f product) (g product))
include hfg

theorem xSideSecp256k1_refines :
    Refines (xSideSecp256k1 (curveWith f) v) (xSideSecp256k1 (curveWith g) v) :=
  (vliModSquareFast_refines hfg).bind fun _ => (vliModMultFast_refines hfg).bind fun _ => .refl _

theorem uECCValidPoint_refines :
    Refines (uECCValidPoint (curveWith f) point) (uECCValidPoint (curveWith g) point) := by
  refine .ite (.refl _) (.ite (.refl _) ?_)
  exact (vliModSquareFast_refines hfg).bind fun _ => (xSideSecp256k1_refines hfg).bind
    fun _ => .refl _

theorem modSqrtLoop_refines :
    Refines (modSqrtLoop (curveWith f) p1 a c l) (modSqrtLoop (curveWith g) p1 a c l) := by
  induction c generalizing l with
  | zero => exact .refl _
  | succ c ih =>
    cases c with
    | zero => exact .refl _
    | succ i =>
      rw [modSqrtLoop, modSqrtLoop]
      refine (vliModSquareFast_refines hfg).bind fun s => ?_
      exact .ite ((vliModMultFast_refines hfg).bind fun t => ih) ih

theorem uECCDecompress_refines :
    Refines (uECCDecompress (curveWith f) bytes) (uECCDecompress (curveWith g) bytes) :=
  (xSideSecp256k1_refines hfg).bind fun _ => (modSqrtLoop_refines hfg).bind fun _ => .refl _

end Refines

/-- **Valid keys**: both builds return, the plain one with whether the bytes are those of a point,
and the shipped one with the same unless a product loses a carry. -/
theorem uECCValidPublicKey_iff (hlen : publicKey.length = 64) :
    (∃ b, uECCValidPublicKey (curveWith plain) publicKey = some b ∧
      (b = true ↔ ∃ P, IsPoint (publicPoint curveSecp256k1 publicKey) P)) ∧
    (∃ b, uECCValidPublicKey curveSecp256k1 publicKey = some b) ∧
    (uECCValidPublicKey (curveWith guarded) publicKey = none ∨
      uECCValidPublicKey curveSecp256k1 publicKey =
        uECCValidPublicKey (curveWith plain) publicKey) := by
  have hpub := length_publicPoint hlen
  obtain ⟨b, hb, -⟩ := uECCValidPoint_yields returns_plain hpub
  obtain ⟨c, hc, -⟩ := uECCValidPoint_yields returns_shipped hpub
  have hiff := uECCValidPoint_iff reduces_plain hpub hb
  refine ⟨⟨b, hb, hiff⟩, ⟨c, hc⟩, ?_⟩
  cases hc : uECCValidPublicKey (curveWith guarded) publicKey with
  | none => exact .inl rfl
  | some c =>
    have hshipped := uECCValidPoint_refines (g := curveSecp256k1.mmodFast)
      (fun _ _ => guarded_shipped) c hc
    have hbc : c = b := Bool.eq_iff_iff.mpr
      ((uECCValidPoint_iff reduces_guarded hpub hc).trans hiff.symm)
    exact .inr (hshipped.trans (hbc ▸ hb.symm))

/-- The key of the device is valid. -/
theorem ecPubKey_valid : uECCValidPublicKey (curveWith plain) ecPubKey = some true := by
  obtain ⟨⟨b, hb, hiff⟩, -⟩ :=
    uECCValidPublicKey_iff (show ecPubKey.length = 64 from rfl)
  exact hiff.mpr ⟨_, isPoint_ecPubKey⟩ ▸ hb

/-- **The round trip of a key** through its compressed form, in both builds. -/
theorem uECCDecompress_round_trip (hlen : publicKey.length = 64)
    (hkey : IsPoint (publicPoint curveSecp256k1 publicKey) P) :
    uECCDecompress (curveWith plain) (uECCCompress curveSecp256k1 publicKey) = some publicKey ∧
      (uECCDecompress (curveWith guarded) (uECCCompress curveSecp256k1 publicKey) = none ∨
        uECCDecompress curveSecp256k1 (uECCCompress curveSecp256k1 publicKey) =
          some publicKey) := by
  have hbytes : 33 ≤ (uECCCompress curveSecp256k1 publicKey).length := by
    rw [uECCCompress, List.length_cons, List.length_take, hlen]
    decide
  obtain ⟨out, hout, -⟩ := uECCDecompress_yields returns_plain hbytes
  obtain rfl := uECCDecompress_compress reduces_plain hlen hkey hout
  refine ⟨hout, ?_⟩
  rw [or_iff_not_imp_left, ← Ne, Option.ne_none_iff_exists']
  rintro ⟨c, hc⟩
  have hshipped := uECCDecompress_refines (g := curveSecp256k1.mmodFast)
    (fun _ _ => guarded_shipped) c hc
  rw [uECCDecompress_compress reduces_guarded hlen hkey hc] at hshipped
  exact hshipped

theorem ecPubKey_round_trip :
    uECCDecompress (curveWith plain) (uECCCompress curveSecp256k1 ecPubKey) = some ecPubKey :=
  (uECCDecompress_round_trip rfl isPoint_ecPubKey).1

end Pic18Boot
