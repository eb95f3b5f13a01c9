import Pic18Boot.Model.Signature
import Pic18Boot.Theory.Ladder
import Pic18Boot.Verify.Builds

/-! # The order of the generator, and the key of the device

The generator and the point of `ec_pub_key` have order `n`, by a ladder that ends at their inverse.
So what the verifier accepts is what the owner of a key signed (`uECCVerify_signed`), and each
signature has a second one beside it (`uECCVerify_negated`). -/

open WeierstrassCurve

namespace Pic18Boot

variable {P Q : Point} {x y x' y' u k : ℕ} {bytes : List UInt8}

/-- Coordinates of the point `(x, y)`. -/
def endsAt (x y : ℕ) : Option (ℕ × ℕ × ℕ) → Bool
  | none => false
  | some (X, Y, Z) =>
    Z % fieldP != 0 && X % fieldP == x * Z ^ 2 % fieldP && Y % fieldP == y * Z ^ 3 % fieldP

/-- What a ladder ends at is the multiple. -/
theorem nsmul_eq_of_ladder (hP : Jacobian.Represents (x : Fp) y 1 P)
    (hQ : Jacobian.Represents (x' : Fp) y' 1 Q)
    (h : endsAt x' y' (Jacobian.ladder fieldP x y u k x y 1) = true) :
    (2 ^ k + u % 2 ^ k) • P = Q := by
  revert h
  cases hrun : Jacobian.ladder fieldP x y u k x y 1 with
  | none => exact fun h => (Bool.false_ne_true h).elim
  | some R =>
    obtain ⟨X, Y, Z⟩ := R
    intro h
    rw [endsAt, Bool.and_eq_true, Bool.and_eq_true, bne_iff_ne, beq_iff_eq, beq_iff_eq] at h
    obtain ⟨⟨hZ, hX⟩, hY⟩ := h
    have hone : Jacobian.Represents (x : Fp) y (1 : ℕ) (1 • P) := by
      rwa [one_nsmul, Nat.cast_one]
    have hodd : fieldP % 2 = 1 := by decide
    have hrep := Jacobian.ladder_represents hodd hP hone hrun
    have hend := hQ.scale (Jacobian.cast_ne_zero hZ)
    have hX' := (ZMod.natCast_eq_natCast_iff _ _ _).mpr (show X ≡ x' * Z ^ 2 [MOD fieldP] from hX)
    have hY' := (ZMod.natCast_eq_natCast_iff _ _ _).mpr (show Y ≡ y' * Z ^ 3 [MOD fieldP] from hY)
    push_cast at hX' hY'
    rw [← hX', ← hY'] at hend
    have heq := hrep.unique hend
    rwa [one_mul] at heq

/-- A ladder to the inverse, one before `n`, shows that `n` kills the point. -/
theorem order_nsmul_of_ladder (hP : Jacobian.Represents (x : Fp) y 1 P) (hy : y ≤ fieldP)
    (h : endsAt x (fieldP - y)
      (Jacobian.ladder fieldP x y (orderN - 1) 255 x y 1) = true) : orderN • P = 0 := by
  have hneg : Jacobian.Represents (x : Fp) (fieldP - y : ℕ) 1 (-P) := by
    rw [Jacobian.cast_sub hy]
    exact hP.neg
  have hn : orderN = 2 ^ 255 + (orderN - 1) % 2 ^ 255 + 1 := by decide
  rw [hn, succ_nsmul, nsmul_eq_of_ladder hP hneg h, neg_add_cancel]

theorem order_nsmul_generator : orderN • generator = 0 :=
  order_nsmul_of_ladder (Jacobian.represents_one _) (by decide) (by decide +kernel)

theorem generator_ne_zero : generator ≠ 0 := Affine.Point.some_ne_zero _

/-- The point of sixty-four bytes. -/
theorem isPoint_of_equation (hlen : bytes.length = 64) (hx : bigEndian (bytes.take 32) < fieldP)
    (hy : bigEndian (bytes.drop 32) < fieldP)
    (hns : (Jacobian.curve (7 : Fp)).Nonsingular (bigEndian (bytes.take 32) : ℕ)
      (bigEndian (bytes.drop 32) : ℕ)) :
    IsPoint (publicPoint curveSecp256k1 bytes) (.some _ _ hns) := by
  obtain ⟨⟨hxlen, hxval⟩, hylen, hyval⟩ := halves_eq hlen
  rw [List.take_of_length_le (show (bytes.drop 32).length ≤ 32 by rw [List.length_drop]; omega)]
    at hyval
  refine IsAffine.append ⟨_, _, _, ?_, ?_, rfl⟩
  · have := isFe_of_lt hxlen (hxval ▸ hx)
    rwa [hxval] at this
  · have := isFe_of_lt hylen (hyval ▸ hy)
    rwa [hyval] at this

/-! ### The key of the device -/

/-- The coordinates in `ec_pub_key`. -/
def keyX : ℕ := bigEndian (ecPubKey.take 32)
def keyY : ℕ := bigEndian (ecPubKey.drop 32)

theorem key_nonsingular : (Jacobian.curve (7 : Fp)).Nonsingular keyX keyY :=
  nonsingular_of_modEq (by decide)

/-- The point of `ec_pub_key`. -/
def keyPoint : Point := .some _ _ key_nonsingular

theorem isPoint_ecPubKey : IsPoint (publicPoint curveSecp256k1 ecPubKey) keyPoint :=
  isPoint_of_equation rfl (by decide) (by decide) key_nonsingular

/-- The key is neither the generator nor its inverse. -/
theorem keyPoint_ne : keyPoint ≠ generator ∧ keyPoint ≠ -generator := by
  have hx : (keyX : Fp) ≠ word.value (secp256k1G.take 8) := by
    rw [Ne, ZMod.natCast_eq_natCast_iff]
    decide
  constructor
  · intro h
    exact hx (Affine.Point.some.inj h).1
  · intro h
    rw [generator, Affine.Point.neg_some] at h
    exact hx (Affine.Point.some.inj h).1

theorem order_nsmul_keyPoint : orderN • keyPoint = 0 :=
  order_nsmul_of_ladder (Jacobian.represents_one _) (by decide) (by decide +kernel)

/-! ### Signatures -/

variable {publicKey messageHash signature : List UInt8} {hashSize d e : ℕ}

theorem xCoordinate_neg : xCoordinate (-P) = xCoordinate P := by
  cases P with
  | zero => rfl
  | some x y hns => rfl

/-- **Signing and verifying**: under the key of `d`, which is not 1 or -1, the builds accept exactly
what is signed with `d` and some nonce, where the run is regular. -/
theorem uECCVerify_signed (hkey : IsPoint (publicPoint curveSecp256k1 publicKey) (d • generator))
    (hone : ¬d ≡ 1 [MOD orderN]) (hneg : ¬d + 1 ≡ 0 [MOD orderN])
    (hlen : publicKey.length = 64) (hhash : hashSize ≤ messageHash.length)
    (hsig : signature.length = 64) :
    Answers publicKey messageHash hashSize signature
      ((InRange signature ∧ ∃ k, Ecdsa.Signed orderN xCoordinate generator d
          (digest messageHash hashSize) k (signatureR signature) (signatureS signature)) ∧
        RegularRun (d • generator) (digest messageHash hashSize) (signatureR signature)
          (signatureS signature)) := by
  rw [← Ecdsa.nsmul_eq_self_iff order_nsmul_generator generator_ne_zero] at hone
  rw [← Ecdsa.nsmul_eq_neg_iff order_nsmul_generator generator_ne_zero] at hneg
  have h := uECCVerify_answers hkey hone hneg hlen hhash hsig
  rwa [Ecdsa.valid_iff_signed order_nsmul_generator, ← and_assoc] at h

/-- The key of 2. -/
def doubleKey : List UInt8 := [
  0xc6, 0x04, 0x7f, 0x94, 0x41, 0xed, 0x7d, 0x6d, 0x30, 0x45, 0x40, 0x6e, 0x95, 0xc0, 0x7c,
  0xd8, 0x5c, 0x77, 0x8e, 0x4b, 0x8c, 0xef, 0x3c, 0xa7, 0xab, 0xac, 0x09, 0xb9, 0x5c, 0x70,
  0x9e, 0xe5, 0x1a, 0xe1, 0x68, 0xfe, 0xa6, 0x3d, 0xc3, 0x39, 0xa3, 0xc5, 0x84, 0x19, 0x46,
  0x6c, 0xea, 0xee, 0xf7, 0xf6, 0x32, 0x65, 0x32, 0x66, 0xd0, 0xe1, 0x23, 0x64, 0x31, 0xa9,
  0x50, 0xcf, 0xe5, 0x2a]

theorem doubleKey_nonsingular : (Jacobian.curve (7 : Fp)).Nonsingular
    (bigEndian (doubleKey.take 32) : ℕ) (bigEndian (doubleKey.drop 32) : ℕ) :=
  nonsingular_of_modEq (by decide)

theorem two_nsmul_generator : 2 • generator = .some _ _ doubleKey_nonsingular :=
  nsmul_eq_of_ladder (u := 0) (k := 1) (Jacobian.represents_one _) (Jacobian.represents_one _)
    (by decide)

theorem isPoint_doubleKey : IsPoint (publicPoint curveSecp256k1 doubleKey) (2 • generator) :=
  two_nsmul_generator ▸ isPoint_of_equation rfl (by decide) (by decide) doubleKey_nonsingular

/-- The verifier returns on a signature of 0 under the key of 2. -/
theorem doubleKey_signed : ∃ b, uECCVerify doubleKey (List.replicate 32 0) 32
    (List.replicate 64 1) (curveWith plain) = some b := by
  have h : Answers doubleKey (List.replicate 32 0) 32 (List.replicate 64 1) _ :=
    uECCVerify_signed isPoint_doubleKey (by decide) (by decide) rfl (by decide) rfl
  obtain ⟨⟨b, hb, -⟩, -⟩ := h
  exact ⟨b, hb⟩

/-- The signature with `n - s` for `s`. -/
def negated (signature : List UInt8) : List UInt8 :=
  signature.take 32 ++
    vliNativeToBytes 32 (vliSub secp256k1N (vliBytesToNative (signature.drop 32) 32)).1

theorem negated_eq (hsig : signature.length = 64) :
    (negated signature).length = 64 ∧ signatureR (negated signature) = signatureR signature ∧
      signatureS (negated signature) =
        (orderN + (2 ^ 256 - signatureS signature)) % 2 ^ 256 := by
  have htake : (signature.take 32).length = 32 := by rw [List.length_take]; omega
  obtain ⟨-, hslen, hs⟩ := halves_eq hsig
  have hval := value_vliSub_mod (length_secp256k1N.trans hslen.symm)
  rw [value_secp256k1N, hs, ← signatureS] at hval
  refine ⟨?_, ?_, ?_⟩
  · rw [negated, List.length_append, htake, length_vliNativeToBytes]
  · rw [signatureR, signatureR, negated, List.take_left' htake]
  · rw [signatureS, negated, List.drop_left' htake,
      List.take_of_length_le length_vliNativeToBytes.le, bigEndian_vliNativeToBytes, hval]
    exact Nat.mod_mod _ _

theorem valid_negated (hq : orderN • Q = 0) (hsig : signature.length = 64) :
    Ecdsa.Valid orderN xCoordinate generator Q e (signatureR (negated signature))
        (signatureS (negated signature)) ↔
      Ecdsa.Valid orderN xCoordinate generator Q e (signatureR signature)
        (signatureS signature) := by
  obtain ⟨-, hr, hs⟩ := negated_eq hsig
  have hlt : signatureS signature < 2 ^ 256 := bigEndian_lt
    (show ((signature.drop 32).take 32).length = 32 by
      rw [List.length_take, List.length_drop]
      omega)
  have hn : orderN < 2 ^ 256 := by decide
  have hX := @xCoordinate_neg
  rw [hr]
  rcases Nat.lt_or_ge (signatureS signature) orderN with h | h
  swap
  · -- neither is below the order
    refine iff_of_false (fun hv => ?_) fun hv => absurd hv.2.1.2 (Nat.not_lt.mpr h)
    have := hv.2.1
    omega
  rcases Nat.eq_zero_or_pos (signatureS signature) with h0 | h0
  · refine iff_of_false (fun hv => ?_) fun hv => absurd hv.2.1.1 (by omega)
    have := hv.2.1
    omega
  have hsub : signatureS (negated signature) = orderN - signatureS signature := by omega
  rw [hsub]
  refine ⟨fun hv => ?_, fun hv => hv.neg order_nsmul_generator hq fun P => hX⟩
  have := hv.neg order_nsmul_generator hq fun P => hX
  rwa [Nat.sub_sub_self h.le] at this

/-- **Malleability**: under a key of order `n` other than the generator and its inverse, the builds
answer to `n - s` in place of `s` whether the signature itself is valid, where the run is
regular. -/
theorem uECCVerify_negated (hkey : IsPoint (publicPoint curveSecp256k1 publicKey) Q)
    (hne : Q ≠ generator) (hneg : Q ≠ -generator) (hq : orderN • Q = 0)
    (hlen : publicKey.length = 64) (hhash : hashSize ≤ messageHash.length)
    (hsig : signature.length = 64) :
    Answers publicKey messageHash hashSize (negated signature)
      (Ecdsa.Valid orderN xCoordinate generator Q (digest messageHash hashSize)
          (signatureR signature) (signatureS signature) ∧
        RegularRun Q (digest messageHash hashSize) (signatureR signature)
          (signatureS (negated signature))) := by
  obtain ⟨hlen', hr, -⟩ := negated_eq hsig
  have h := uECCVerify_answers hkey hne hneg hlen hhash hlen'
  rwa [valid_negated hq hsig, hr] at h

/-- The verifier returns on the negative of a signature under the key of the device. -/
theorem ecPubKey_negated : ∃ b, uECCVerify ecPubKey (List.replicate 32 0) 32
    (negated (List.replicate 64 1)) (curveWith plain) = some b := by
  have h : Answers ecPubKey (List.replicate 32 0) 32 (negated (List.replicate 64 1)) _ :=
    uECCVerify_negated isPoint_ecPubKey keyPoint_ne.1 keyPoint_ne.2 order_nsmul_keyPoint rfl
      (by decide) rfl
  obtain ⟨⟨b, hb, -⟩, -⟩ := h
  exact ⟨b, hb⟩

end Pic18Boot
