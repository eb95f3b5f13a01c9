import Mathlib.Data.ZMod.Basic
import Pic18Boot.Model.Curve
import Pic18Boot.Verify.MmodFast

/-! # The field of secp256k1 in words

Words below the modulus hold an element of the field (`IsFe`), and sums, differences, halves and
products of such words hold those of the elements. Products are taken by whatever a build calls for
`mmod_fast`: a function that reduces the products of field elements (`Reduces`). The reduction that
the code ships does so only where it drops no carry (`reduces_guarded`), the plain remainder always
(`reduces_plain`). -/

namespace Pic18Boot

abbrev Fp := ZMod fieldP

variable {v w r product : Vli} {x y z : Fp} {f : Vli → Option Vli}

/-- The words hold `x`, below the modulus. -/
structure IsFe (v : Vli) (x : Fp) : Prop where
  length : v.length = 8
  value : word.value v = x.val

theorem IsFe.lt (h : IsFe v x) : word.value v < fieldP := h.value ▸ ZMod.val_lt x

theorem isFe_of_lt (hlen : v.length = 8) (hlt : word.value v < fieldP) :
    IsFe v (word.value v : Fp) := ⟨hlen, (ZMod.val_natCast_of_lt hlt).symm⟩

/-- Words and element determine each other. -/
theorem IsFe.eq_iff (hv : IsFe v x) (hw : IsFe w y) : v = w ↔ x = y := by
  rw [← (ZMod.val_injective fieldP).eq_iff, ← hv.value, ← hw.value]
  exact ⟨congrArg _, Digits.value_inj (hv.length.trans hw.length.symm)⟩

theorem IsFe.isZero_iff (h : IsFe v x) : vliIsZero v ↔ x = 0 := by
  rw [vliIsZero_iff, h.value, ZMod.val_eq_zero]

theorem IsFe.equal_iff (hv : IsFe v x) (hw : IsFe w y) : vliEqual v w ↔ x = y := by
  rw [vliEqual_iff (hv.length.trans hw.length.symm), hv.eq_iff hw]

/-! ### Sums, differences and halves -/

theorem IsFe.modAdd (hv : IsFe v x) (hw : IsFe w y) : IsFe (vliModAdd v w secp256k1P) (x + y) := by
  obtain ⟨hlen, hval⟩ := value_vliModAdd hv.length hw.length length_secp256k1P
    (value_secp256k1P ▸ hv.lt) (value_secp256k1P ▸ hw.lt)
  exact ⟨hlen, by rw [hval, hv.value, hw.value, value_secp256k1P, ZMod.val_add]⟩

theorem IsFe.modSub (hv : IsFe v x) (hw : IsFe w y) : IsFe (vliModSub v w secp256k1P) (x - y) := by
  obtain ⟨hlen, hval⟩ := value_vliModSub hv.length hw.length length_secp256k1P
    (value_secp256k1P ▸ hv.lt) (value_secp256k1P ▸ hw.lt)
  refine ⟨hlen, ?_⟩
  have hle : y.val ≤ x.val + fieldP := (ZMod.val_lt y).le.trans (Nat.le_add_left _ _)
  rw [hval, hv.value, hw.value, value_secp256k1P, ← ZMod.val_natCast, Nat.cast_sub hle]
  simp

/-- The carry of a sum goes to the top bit as in `vli_modInv_update`. -/
theorem half_eq_modInvUpdate (h : v.length = 8) :
    (if vliTestBit v 0 then
      orTop (vliRshift1 (vliAdd v secp256k1P).1) ((vliAdd v secp256k1P).2 <<< 31)
    else vliRshift1 v) = modInvUpdate v secp256k1P := by
  have hcarry := (vliAdd_eq (h.trans length_secp256k1P.symm)).1
  have heven : vliTestBit v 0 = !vliEven v := by
    rw [vliTestBit_eq, Nat.testBit_zero, ← Bool.not_inj_iff, Bool.not_not, Bool.eq_iff_iff,
      vliEven_iff]
    simp
  rw [modInvUpdate, heven]
  cases vliEven v with
  | true => rfl
  | false =>
    rcases Nat.le_one_iff_eq_zero_or_eq_one.mp hcarry with h0 | h1
    · have h0 : (vliAdd v secp256k1P).2 = 0 := UInt32.toNat_inj.mp h0
      have hset : ∀ l : Vli, orTop l 0 = l := fun l => by
        rcases Nat.lt_or_ge (l.length - 1) l.length with hl | hl
        · rw [orTop, UInt32.or_zero, List.getD_eq_getElem _ _ hl, List.set_getElem_self]
        · obtain rfl := List.length_eq_zero_iff.mp (by omega : l.length = 0)
          rfl
      simp [h0, hset]
    · have h1 : (vliAdd v secp256k1P).2 = 1 := UInt32.toNat_inj.mp h1
      simp only [h1, Bool.not_false, ↓reduceIte]
      rfl

theorem IsFe.half (hv : IsFe v x) : ∃ z : Fp, 2 * z = x ∧ IsFe
    (if vliTestBit v 0 then
      orTop (vliRshift1 (vliAdd v secp256k1P).1) ((vliAdd v secp256k1P).2 <<< 31)
    else vliRshift1 v) z := by
  obtain ⟨hlen, hval⟩ := modInvUpdate_eq hv.length length_secp256k1P (by decide)
  have hodd : fieldP % 2 = 1 := by decide
  rw [half_eq_modInvUpdate hv.length]
  rw [value_secp256k1P] at hval
  refine ⟨_, ?_, isFe_of_lt hlen (hval ▸ BinaryInverse.half_lt hodd hv.lt)⟩
  have htwo := (ZMod.natCast_eq_natCast_iff _ _ _).mpr
    (BinaryInverse.two_mul_half (u := word.value v) hodd)
  rw [hval, ← Nat.cast_ofNat, ← Nat.cast_mul, htwo, hv.value, ZMod.natCast_zmod_val]

/-! ### Products -/

/-- The curve of the code in a build that calls `f` for `mmod_fast`. -/
def curveWith (f : Vli → Option Vli) : UECCCurve := { curveSecp256k1 with mmodFast := f }

@[simp] theorem numWords_curveWith : (curveWith f).numWords = 8 := rfl
@[simp] theorem numBytes_curveWith : (curveWith f).numBytes = 32 := rfl
@[simp] theorem numNBits_curveWith : (curveWith f).numNBits = 256 := rfl
@[simp] theorem p_curveWith : (curveWith f).p = secp256k1P := rfl
@[simp] theorem n_curveWith : (curveWith f).n = secp256k1N := rfl
@[simp] theorem G_curveWith : (curveWith f).G = secp256k1G := rfl
@[simp] theorem b_curveWith : (curveWith f).b = secp256k1B := rfl

/-- Where it returns, `f` reduces the product of two field elements. -/
def Reduces (f : Vli → Option Vli) : Prop :=
  ∀ ⦃product r : Vli⦄ ⦃x y : Fp⦄, product.length = 16 → word.value product = x.val * y.val →
    f product = some r → IsFe r (x * y)

/-- `f` returns a number of eight words. -/
def Returns (f : Vli → Option Vli) : Prop :=
  ∀ ⦃product : Vli⦄, product.length = 16 → ∃ r, f product = some r ∧ r.length = 8

theorem IsFe.mult (hf : Reduces f) (hv : IsFe v x) (hw : IsFe w y)
    (h : vliModMultFast (curveWith f) v w = some r) : IsFe r (x * y) := by
  obtain ⟨hlen, hval⟩ := value_vliMult (n := 8) hv.length hw.length (by decide) (by decide)
  exact hf hlen (by rw [hval, hv.value, hw.value]) h

theorem IsFe.square (hf : Reduces f) (hv : IsFe v x)
    (h : vliModSquareFast (curveWith f) v = some r) : IsFe r (x ^ 2) :=
  sq x ▸ hv.mult hf hv h

/-- The remainder that is taken at `uECC_OPTIMIZATION_LEVEL` 0. -/
def plain (product : Vli) : Option Vli := some (vliMmod product secp256k1P 8)

/-- The reduction of the code, where it drops no carry. -/
def guarded (product : Vli) : Option Vli :=
  if DropsCarry (word.value product) then none else some (vliMmodFastSecp256k1 product)

theorem value_plain (h : product.length = 16) : (vliMmod product secp256k1P 8).length = 8 ∧
    word.value (vliMmod product secp256k1P 8) = word.value product % fieldP :=
  value_vliMmod (n := 8) h length_secp256k1P (by decide) (by decide)

theorem reduces_plain : Reduces plain := by
  intro product r x y hlen hval h
  obtain ⟨hr, hrval⟩ := value_plain hlen
  obtain rfl := Option.some_inj.mp h
  exact ⟨hr, by rw [hrval, hval, ZMod.val_mul]⟩

theorem reduces_guarded : Reduces guarded := by
  intro product r x y hlen hval h
  rw [guarded] at h
  split at h
  · cases h
  · obtain rfl := Option.some_inj.mp h
    refine ⟨(vliMmodFastSecp256k1_eq hlen).1, ?_⟩
    rw [vliMmodFastSecp256k1_mul hlen (ZMod.val_lt x) (ZMod.val_lt y) hval (hval ▸ ‹_›),
      ZMod.val_mul]

theorem returns_plain : Returns plain := fun _ h => ⟨_, rfl, (value_plain h).1⟩

theorem returns_shipped : Returns curveSecp256k1.mmodFast :=
  fun _ h => ⟨_, rfl, (vliMmodFastSecp256k1_eq h).1⟩

/-- Where the guarded reduction returns, the code's returns the same. -/
theorem guarded_shipped (h : guarded product = some r) :
    curveSecp256k1.mmodFast product = some r := by
  rw [guarded] at h
  split at h
  · cases h
  · exact h

end Pic18Boot
