import Pic18Boot.Model.Ecdsa
import Pic18Boot.Theory.Ecdsa
import Pic18Boot.Verify.Bytes
import Pic18Boot.Verify.Curve

/-! # `uECC_verify` checks the equation of ECDSA

The loop of the verifier is `DoubleAndAdd.shamir` on the points of the curve, in coordinates
(`shamirX_spec`). So it accepts exactly the valid signatures on whose scalars no step is exceptional
(`uECCVerify_iff`); in the exceptional steps the `z` of the accumulator is lost, and what comes out
is rejected. -/

open WeierstrassCurve

namespace Pic18Boot

variable {f : Vli → Option Vli} {u1 u2 pub sum one v w x y z rx ry ax ay x3 y3 z3 : Vli}
variable {X : Fp} {R : Option Point} {P Q : Point} {k hashSize : Nat} {b : Bool}
variable {publicKey messageHash signature : List UInt8}

/-! ### Affine coordinates -/

theorem IsFe.modInv (h : IsFe v X) (hinv : vliModInv v secp256k1P = some w) : IsFe w X⁻¹ := by
  obtain ⟨w', hw', hlen, hlt, hzero, hmul⟩ := vliModInv_spec h.length length_secp256k1P (by decide)
    (by rw [value_secp256k1P]; decide) (by rw [value_secp256k1P]; decide)
  obtain rfl := Option.some_inj.mp (hw'.symm.trans hinv)
  rw [value_secp256k1P] at hlt hmul
  have hfe := isFe_of_lt hlen hlt
  by_cases hX : X = 0
  · rw [hzero (by rw [h.value, hX, ZMod.val_zero]), Nat.cast_zero] at hfe
    rwa [hX, inv_zero]
  · have hval : word.value v ≠ 0 := by rwa [h.value, Ne, ZMod.val_eq_zero]
    have hgcd : (word.value v).gcd fieldP = 1 :=
      (Nat.coprime_of_lt_prime hval h.lt prime_fieldP).symm
    have heq := (ZMod.natCast_eq_natCast_iff _ _ _).mpr (hgcd ▸ hmul hval)
    rw [Nat.cast_mul, h.value, ZMod.natCast_zmod_val, Nat.cast_one] at heq
    rwa [← eq_inv_of_mul_eq_one_left heq]

/-- The affine coordinates; where there is no point both are 0. -/
theorem Coordinates.affine (hf : Reduces f) (h : Coordinates rx ry z R)
    (hinv : vliModInv z secp256k1P = some w) (hrun : applyZ (curveWith f) rx ry w = some (ax, ay)) :
    R.elim (IsFe ax 0) (IsAffine ax ay) := by
  obtain ⟨X, Y, Z, hx, hy, hz, hR⟩ := h
  obtain ⟨hax, hay⟩ := applyZ_isFe hf hx hy (hz.modInv hinv) hrun
  cases R with
  | none =>
    rw [show Z = 0 from hR, inv_zero, zero_pow two_ne_zero, mul_zero] at hax
    exact hax
  | some P =>
    cases P with
    | zero => exact hR.elim
    | some x y hns =>
      obtain ⟨hZ, rfl, rfl⟩ := hR
      have hX : x * Z ^ 2 * Z⁻¹ ^ 2 = x := by field_simp
      have hY : y * Z ^ 3 * Z⁻¹ ^ 3 = y := by field_simp
      rw [hX] at hax
      rw [hY] at hay
      exact ⟨x, y, hns, hax, hay, rfl⟩

/-! ### The generator and the sum -/

theorem isFe_one : IsFe ((vliClear 8).set 0 1) 1 := by
  refine ⟨rfl, ?_⟩
  rw [ZMod.val_one]
  decide

theorem generator_nonsingular : (Jacobian.curve (7 : Fp)).Nonsingular
    (word.value (secp256k1G.take 8)) (word.value (secp256k1G.drop 8)) :=
  nonsingular_of_modEq (by decide)

/-- The point `G` of the curve. -/
def generator : Point := .some _ _ generator_nonsingular

theorem isPoint_generator : IsPoint secp256k1G generator :=
  ⟨_, _, _, isFe_of_lt rfl (by decide), isFe_of_lt rfl (by decide +kernel), rfl⟩

/-- **The sum `G + Q`**, for a public key that lies neither on `G` nor below it. -/
theorem shamirSum_spec (hf : Reduces f) (hpub : IsPoint pub Q) (hne : Q ≠ generator)
    (hneg : Q ≠ -generator) (h : shamirSum (curveWith f) pub = some sum) :
    IsPoint sum (generator + Q) := by
  obtain ⟨gx, gy, hg, hgx, hgy, hgen⟩ := isPoint_generator
  obtain ⟨qx, qy, hq, hqx, hqy, rfl⟩ := hpub
  simp only [shamirSum, Option.bind_eq_bind, Option.bind_eq_some_iff, Option.pure_def,
    Option.some.injEq] at h
  obtain ⟨⟨_, _, sx, sy⟩, hadd, w, hw, ⟨ax, ay⟩, hz, rfl⟩ := h
  obtain ⟨A, X3, hA, hX3, hsx, hsy⟩ := xyczAdd_isFe hf hgx hgy hqx hqy hadd
  have hG := Jacobian.represents_one hg
  have hQ := Jacobian.represents_one hq
  have hX : gx ≠ qx := by
    intro h
    rw [hgen] at hne hneg
    rcases (hQ.x_eq_iff hG).mp h.symm with h | h
    · exact hne h
    · exact hneg h
  have hsum := hG.add hQ hX hA hX3
  rw [one_mul, ← hgen] at hsum
  have hcoord : Coordinates sx sy (vliModSub (pub.take 8) (secp256k1G.take 8) secp256k1P)
      (some (generator + Affine.Point.some qx qy hq)) :=
    ⟨_, _, _, hsx, hsy, hqx.modSub hgx, hsum⟩
  exact (hcoord.affine hf hw hz).append

/-! ### The loop -/

/-- `points[index]` is the point of the index. -/
theorem shamirPoint_spec (hpub : IsPoint pub Q) (hsum : IsPoint sum (generator + Q))
    (b1 b2 : Bool) :
    shamirPoint secp256k1G pub sum b1 b2 = none ∧
        DoubleAndAdd.select generator Q (generator + Q) b1 b2 = none ∨
      ∃ point P, shamirPoint secp256k1G pub sum b1 b2 = some point ∧
        DoubleAndAdd.select generator Q (generator + Q) b1 b2 = some P ∧ IsPoint point P := by
  cases b1 with
  | false =>
    cases b2 with
    | false => exact .inl ⟨rfl, rfl⟩
    | true => exact .inr ⟨pub, Q, rfl, rfl, hpub⟩
  | true =>
    cases b2 with
    | false => exact .inr ⟨_, _, rfl, rfl, isPoint_generator⟩
    | true => exact .inr ⟨sum, _, rfl, rfl, hsum⟩

theorem shamirLoop_succ (curve : UECCCurve) :
    shamirLoop curve u1 u2 pub sum (k + 1) rx ry z =
      (doubleJacobianSecp256k1 curve rx ry z).bind fun p =>
        (shamirPoint curve.G pub sum (vliTestBit u1 k) (vliTestBit u2 k)).elim
          (shamirLoop curve u1 u2 pub sum k p.1 p.2.1 p.2.2) fun point =>
            (addPoint curve point p.1 p.2.1 p.2.2).bind fun p =>
              shamirLoop curve u1 u2 pub sum k p.1 p.2.1 p.2.2 := by
  rw [shamirLoop]
  refine congrArg (Option.bind _) (funext fun p => ?_)
  cases shamirPoint curve.G pub sum (vliTestBit u1 k) (vliTestBit u2 k) with
  | none => rfl
  | some point => simp [addPoint, Option.bind_assoc]

theorem shamirLoop_spec (hf : Reduces f) (hpub : IsPoint pub Q)
    (hsum : IsPoint sum (generator + Q)) (hR : Coordinates rx ry z R)
    (h : shamirLoop (curveWith f) u1 u2 pub sum k rx ry z = some (x3, y3, z3)) :
    Coordinates x3 y3 z3 (R.bind (DoubleAndAdd.loop generator Q (generator + Q) (word.value u1)
      (word.value u2) k)) := by
  induction k generalizing rx ry z R with
  | zero =>
    obtain ⟨rfl, rfl, rfl⟩ : rx = x3 ∧ ry = y3 ∧ z = z3 := by simpa [shamirLoop] using h
    have hzero : R.bind (DoubleAndAdd.loop generator Q (generator + Q) (word.value u1)
        (word.value u2) 0) = R := by cases R <;> rfl
    rwa [hzero]
  | succ k ih =>
    rw [shamirLoop_succ, Option.bind_eq_some_iff, vliTestBit_eq, vliTestBit_eq] at h
    obtain ⟨⟨dx, dy, dz⟩, hdouble, h⟩ := h
    have hD := doubleJacobianSecp256k1_spec hf hR hdouble
    rw [DoubleAndAdd.bind_loop_succ]
    rcases shamirPoint_spec hpub hsum ((word.value u1).testBit k) ((word.value u2).testBit k) with
      ⟨hnone, hsel⟩ | ⟨point, P, hsome, hsel, hpoint⟩
    · rw [hsel]
      rw [G_curveWith, hnone] at h
      exact ih hD h
    · rw [hsel]
      rw [G_curveWith, hsome] at h
      obtain ⟨⟨sx, sy, sz⟩, hadd, h⟩ := Option.bind_eq_some_iff.mp h
      exact ih (addPoint_spec hf hD hpoint hadd) h

theorem smax_eq : smax (vliNumBits u1) (vliNumBits u2) =
    max (word.value u1).size (word.value u2).size := by
  rw [smax, vliNumBits_eq, vliNumBits_eq]
  split <;> omega

/-- **Shamir's trick in coordinates**: the first coordinate of the sum, or 0 where a step is
exceptional. -/
theorem shamirX_spec (hf : Reduces f) (hpub : IsPoint pub Q) (hne : Q ≠ generator)
    (hneg : Q ≠ -generator) (hpos : 0 < max (word.value u1).size (word.value u2).size)
    (h : shamirX (curveWith f) u1 u2 pub = some rx) :
    (DoubleAndAdd.shamir generator Q (generator + Q) (word.value u1) (word.value u2)).elim
      (IsFe rx 0) fun S => ∃ ry, IsAffine rx ry S := by
  simp only [shamirX, Option.bind_eq_bind, Option.bind_eq_some_iff, Option.pure_def,
    Option.some.injEq] at h
  obtain ⟨sum, hsum, ⟨lx, ly, lz⟩, hloop, w, hw, ⟨ax, ay⟩, haff, rfl⟩ := h
  have hsum := shamirSum_spec hf hpub hne hneg hsum
  rw [smax_eq, vliTestBit_eq, vliTestBit_eq] at hloop
  rw [DoubleAndAdd.shamir]
  simp only
  generalize hk : max (word.value u1).size (word.value u2).size - 1 = k at hloop ⊢
  obtain ⟨P, hP⟩ := DoubleAndAdd.exists_select (g := generator) (q := Q) (s := generator + Q) hpos
  rw [hk] at hP
  rcases shamirPoint_spec hpub hsum ((word.value u1).testBit k) ((word.value u2).testBit k) with
    ⟨-, hsel⟩ | ⟨point, P, hsome, hsel, hpoint⟩
  · rw [hP] at hsel
    cases hsel
  · rw [G_curveWith, hsome, Option.getD_some] at hloop
    have hlast :=
      (shamirLoop_spec hf hpub hsum (hpoint.coordinates isFe_one) hloop).affine hf hw haff
    rw [hsel]
    revert hlast
    rw [Option.bind_some]
    cases DoubleAndAdd.loop generator Q (generator + Q) (word.value u1) (word.value u2) k P with
    | none => exact id
    | some S => exact fun h => ⟨ay, h⟩

/-! ### The verifier -/

/-- The first coordinate of a point modulo the order; the point at infinity has none. -/
def xCoordinate : Point → Option ℕ
  | .zero => none
  | .some x _ _ => some (x.val % orderN)

/-- The number that is signed: the hash, or its first 32 bytes. -/
def digest (messageHash : List UInt8) (hashSize : ℕ) : ℕ :=
  bigEndian (messageHash.take (min hashSize 32))

def signatureR (signature : List UInt8) : ℕ := bigEndian (signature.take 32)

def signatureS (signature : List UInt8) : ℕ := bigEndian ((signature.drop 32).take 32)

/-- No step of the verifier is exceptional on the scalars of the signature. -/
def RegularRun (Q : Point) (e r s : ℕ) : Prop :=
  DoubleAndAdd.Regular generator Q (Ecdsa.u₁ orderN e s) (Ecdsa.u₂ orderN r s)
    (max (Ecdsa.u₁ orderN e s).size (Ecdsa.u₂ orderN r s).size - 1)

theorem bits2int_eq (h : hashSize ≤ messageHash.length) :
    (bits2int messageHash hashSize (curveWith f)).length = 8 ∧
      word.value (bits2int messageHash hashSize (curveWith f)) = digest messageHash hashSize := by
  have hmin : (if hashSize > 32 then 32 else hashSize) = min hashSize 32 := by
    split <;> omega
  obtain ⟨hlen, hval⟩ := vliBytesToNative_eq
    (show min hashSize 32 ≤ messageHash.length by omega)
  have hfit : min hashSize 32 * 8 ≤ 256 := by omega
  rw [bits2int]
  simp only [numNBits_curveWith, show bitsToBytes 256 = 32 from rfl,
    show bitsToWords 256 = 8 from rfl]
  rw [hmin, if_pos hfit, List.length_append, Digits.value_append, hval, List.length_drop,
    length_vliClear,
    vliClear, List.drop_replicate, Digits.value_replicate rfl, hlen]
  exact ⟨by omega, rfl⟩

/-- The inverse modulo the order. -/
theorem value_modInv_order {s : Vli} (hlen : s.length = 8) (h0 : word.value s ≠ 0)
    (hlt : word.value s < orderN) (h : vliModInv s secp256k1N = some z) :
    z.length = 8 ∧ (word.value z : ZMod orderN) = (word.value s : ZMod orderN)⁻¹ := by
  obtain ⟨w, hw, hwlen, -, -, hmul⟩ := vliModInv_spec hlen length_secp256k1N (by decide)
    (by rw [value_secp256k1N]; decide) (by rw [value_secp256k1N]; decide)
  obtain rfl := Option.some_inj.mp (hw.symm.trans h)
  rw [value_secp256k1N] at hmul
  have hgcd : (word.value s).gcd orderN = 1 := (Nat.coprime_of_lt_prime h0 hlt prime_orderN).symm
  have heq := (ZMod.natCast_eq_natCast_iff _ _ _).mpr (hgcd ▸ hmul h0)
  rw [Nat.cast_mul, Nat.cast_one] at heq
  exact ⟨hwlen, eq_inv_of_mul_eq_one_left heq⟩

/-- A scalar of the verifier. -/
theorem value_scalar {e : Vli} {c : ℕ} (he : e.length = 8) (hz : z.length = 8)
    (hs : (word.value z : ZMod orderN) = (c : ZMod orderN)⁻¹) :
    (vliModMult e z secp256k1N 8).length = 8 ∧ word.value (vliModMult e z secp256k1N 8) =
      ((word.value e : ZMod orderN) * (c : ZMod orderN)⁻¹).val := by
  obtain ⟨hlen, hval⟩ := value_vliModMult (n := 8) he hz length_secp256k1N (by decide) (by decide)
    (by rw [value_secp256k1N]; decide)
  rw [hval, value_secp256k1N, ← hs, ← Nat.cast_mul, ZMod.val_natCast]
  exact ⟨hlen, rfl⟩

/-- The reduction of a coordinate modulo the order takes one subtraction. -/
theorem value_mod_order (h : IsFe rx X) :
    (if vliCmpUnsafe secp256k1N rx ≠ 1 then (vliSub rx secp256k1N).1 else rx).length = 8 ∧
      word.value (if vliCmpUnsafe secp256k1N rx ≠ 1 then (vliSub rx secp256k1N).1 else rx) =
        X.val % orderN := by
  have hsame : secp256k1N.length = rx.length := h.length.symm
  have hlt := h.lt
  have hbound : fieldP < 2 * orderN := by decide
  simp only [ne_eq, vliCmpUnsafe_eq_one hsame, value_secp256k1N, ← h.value]
  split
  · obtain ⟨hval, -⟩ := vliSub_of_le hsame.symm (by rw [value_secp256k1N]; omega)
    rw [hval, value_secp256k1N, Nat.mod_eq_sub_mod (by omega), Nat.mod_eq_of_lt (by omega)]
    exact ⟨(length_vliSub hsame.symm).trans h.length, rfl⟩
  · rw [Nat.mod_eq_of_lt (by omega)]
    exact ⟨h.length, rfl⟩

/-- The multiple of the public key is not 0, so the scalars have a highest bit. -/
theorem size_scalars_pos {e r s : ℕ} (hr0 : r ≠ 0) (hr : r < orderN) (hs0 : s ≠ 0)
    (hs : s < orderN) : 0 < max (Ecdsa.u₁ orderN e s).size (Ecdsa.u₂ orderN r s).size := by
  refine lt_max_of_lt_right (Nat.size_pos.mpr (Nat.pos_of_ne_zero fun hu => ?_))
  rw [Ecdsa.u₂, ZMod.val_eq_zero, mul_eq_zero, inv_eq_zero] at hu
  rcases hu with hu | hu
  · exact Ecdsa.natCast_ne_zero (Nat.pos_of_ne_zero hr0) hr hu
  · exact Ecdsa.natCast_ne_zero (Nat.pos_of_ne_zero hs0) hs hu

/-- `r` and `s` are between 1 and the order less 1. -/
def InRange (signature : List UInt8) : Prop :=
  (0 < signatureR signature ∧ signatureR signature < orderN) ∧
    0 < signatureS signature ∧ signatureS signature < orderN

theorem uECCVerify_of_not_inRange (hsig : signature.length = 64) (h : ¬InRange signature) :
    uECCVerify publicKey messageHash hashSize signature (curveWith f) = some false := by
  obtain ⟨⟨hrlen, hr⟩, hslen, hs⟩ := halves_eq hsig
  rw [← signatureR] at hr
  rw [← signatureS] at hs
  rw [uECCVerify]
  simp only [numBytes_curveWith, n_curveWith, Bool.or_eq_true, vliIsZero_iff, ne_eq, hr, hs,
    vliCmpUnsafe_eq_one (length_secp256k1N.trans hrlen.symm),
    vliCmpUnsafe_eq_one (length_secp256k1N.trans hslen.symm), value_secp256k1N]
  split
  · rfl
  · rw [if_pos]
    rw [InRange] at h
    omega

theorem uECCVerify_of_inRange (hsig : signature.length = 64) (h : InRange signature) :
    uECCVerify publicKey messageHash hashSize signature (curveWith f) =
      (vliModInv (vliBytesToNative (signature.drop 32) 32) secp256k1N).bind fun z =>
        (shamirX (curveWith f)
          (vliModMult (bits2int messageHash hashSize (curveWith f)) z secp256k1N 8)
          (vliModMult (vliBytesToNative signature 32) z secp256k1N 8)
          (publicPoint curveSecp256k1 publicKey)).bind fun rx =>
        some (vliEqual (if vliCmpUnsafe secp256k1N rx ≠ 1 then (vliSub rx secp256k1N).1 else rx)
          (vliBytesToNative signature 32)) := by
  obtain ⟨⟨hrlen, hr⟩, hslen, hs⟩ := halves_eq hsig
  rw [← signatureR] at hr
  rw [← signatureS] at hs
  obtain ⟨⟨hr0, hrn⟩, hs0, hsn⟩ := h
  have hkey : publicPoint (curveWith f) publicKey = publicPoint curveSecp256k1 publicKey := rfl
  rw [uECCVerify]
  simp only [numBytes_curveWith, n_curveWith, numNBits_curveWith, Bool.or_eq_true, vliIsZero_iff,
    ne_eq, hr, hs, vliCmpUnsafe_eq_one (length_secp256k1N.trans hrlen.symm),
    vliCmpUnsafe_eq_one (length_secp256k1N.trans hslen.symm), value_secp256k1N, hkey,
    show bitsToWords 256 = 8 from rfl]
  rw [if_neg (by omega), if_neg (by omega)]
  simp only [Option.bind_eq_bind, Option.pure_def]
  rfl

/-- **The verifier** accepts exactly the valid signatures on whose scalars no step is
exceptional. -/
theorem uECCVerify_iff (hf : Reduces f) (hkey : IsPoint (publicPoint curveSecp256k1 publicKey) Q)
    (hne : Q ≠ generator) (hneg : Q ≠ -generator) (hhash : hashSize ≤ messageHash.length)
    (hsig : signature.length = 64)
    (h : uECCVerify publicKey messageHash hashSize signature (curveWith f) = some b) :
    b = true ↔
      Ecdsa.Valid orderN xCoordinate generator Q (digest messageHash hashSize)
          (signatureR signature) (signatureS signature) ∧
        RegularRun Q (digest messageHash hashSize) (signatureR signature)
          (signatureS signature) := by
  by_cases hrange : InRange signature
  swap
  · rw [uECCVerify_of_not_inRange hsig hrange] at h
    obtain rfl := Option.some_inj.mp h
    exact iff_of_false Bool.false_ne_true fun hvalid => hrange ⟨hvalid.1.1, hvalid.1.2.1⟩
  rw [uECCVerify_of_inRange hsig hrange] at h
  obtain ⟨⟨hrlen, hr⟩, hslen, hs⟩ := halves_eq hsig
  rw [← signatureR] at hr
  rw [← signatureS] at hs
  obtain ⟨⟨hr0, hrn⟩, hs0, hsn⟩ := hrange
  obtain ⟨z, hz, h⟩ := Option.bind_eq_some_iff.mp h
  obtain ⟨rx, hrx, h⟩ := Option.bind_eq_some_iff.mp h
  obtain rfl := Option.some_inj.mp h
  obtain ⟨hzlen, hzval⟩ := value_modInv_order hslen (hs ▸ hs0.ne') (hs ▸ hsn) hz
  rw [hs] at hzval
  obtain ⟨helen, heval⟩ := bits2int_eq (f := f) hhash
  obtain ⟨-, hu1⟩ := value_scalar helen hzlen hzval
  obtain ⟨-, hu2⟩ := value_scalar hrlen hzlen hzval
  rw [heval, ← Ecdsa.u₁] at hu1
  rw [hr, ← Ecdsa.u₂] at hu2
  generalize vliBytesToNative signature 32 = r at *
  generalize digest messageHash hashSize = e at *
  generalize signatureR signature = r' at *
  generalize signatureS signature = s' at *
  have hpos := size_scalars_pos (e := e) hr0.ne' hrn hs0.ne' hsn
  have hspec := shamirX_spec hf hkey hne hneg (by rwa [hu1, hu2]) hrx
  rw [hu1, hu2] at hspec
  have hacc : ∀ {v : Vli}, v.length = 8 → (vliEqual v r = true ↔ word.value v = r') := by
    intro v hv
    rw [vliEqual_iff (hv.trans hrlen.symm), ← hr]
    exact ⟨congrArg _, Digits.value_inj (hv.trans hrlen.symm)⟩
  have hshamir := fun S => DoubleAndAdd.shamir_eq_some_iff (g := generator) (q := Q) (S := S) hpos
  revert hspec
  cases hS : DoubleAndAdd.shamir generator Q (generator + Q) (Ecdsa.u₁ orderN e s')
      (Ecdsa.u₂ orderN r' s') with
  | none =>
    intro hrx0
    obtain ⟨hvlen, hv⟩ := value_mod_order hrx0
    rw [ZMod.val_zero, Nat.zero_mod] at hv
    refine iff_of_false (fun h => hr0.ne (hv.symm.trans ((hacc hvlen).mp h))) fun hreg => ?_
    have hsome := (hshamir _).mpr ⟨hreg.2, rfl⟩
    rw [hS] at hsome
    cases hsome
  | some S =>
    rintro ⟨ry, x, y, hns, hx, -, rfl⟩
    obtain ⟨hvlen, hv⟩ := value_mod_order hx
    obtain ⟨hreg, hsum⟩ := (hshamir _).mp hS
    rw [hacc hvlen, hv, RegularRun, and_iff_left hreg, Ecdsa.Valid, ← hsum, xCoordinate,
      Option.some.injEq]
    exact ⟨fun h => ⟨⟨hr0, hrn⟩, ⟨hs0, hsn⟩, h⟩, fun h => h.2.2⟩

end Pic18Boot
