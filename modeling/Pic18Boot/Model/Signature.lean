import Pic18Boot.Model.Flash
import Pic18Boot.Model.Layout
import Pic18Boot.Model.Sha256

/-! # `signature_valid`

The loop that feeds flash to the hash does not look at the hash state, so it is written for any
state `σ` and update function: `sha256_update` in the code, and a list that collects the bytes to
say what is hashed. `uECC_verify` on the curve of the code is a parameter. -/

namespace Pic18Boot

def ecPubKey : List UInt8 := [
  0xce, 0x30, 0x36, 0x7c, 0xc1, 0x6e, 0xb0, 0x8c, 0x5f, 0x0e, 0xb0, 0x2c, 0x11, 0x4f,
  0x8f, 0x78, 0x08, 0x85, 0xec, 0xcf, 0xdb, 0x73, 0xc8, 0xda, 0x6d, 0x9a, 0x00, 0x6a,
  0x33, 0x95, 0xa2, 0x20, 0xcb, 0xdd, 0xb2, 0x9d, 0x97, 0xa0, 0x5c, 0x0f, 0x0f, 0x4f,
  0x66, 0x66, 0x28, 0xd2, 0xe6, 0x29, 0x3e, 0x3b, 0x28, 0x72, 0x46, 0xeb, 0xd9, 0x9f,
  0xa0, 0xe2, 0x9a, 0xa8, 0xa6, 0x9e, 0xfc, 0x2c]

/-- Subtraction of `uint24_t`. -/
def uint24Sub (x y : Nat) : Nat := (x + (2 ^ 24 - y)) % 2 ^ 24

section Hashed
variable {σ : Type*} (update : σ → (Nat → UInt8) → Nat → σ)

/-- The loop over the chunks after the first, and the tail. -/
def signatureLoop (ctx : σ) (flread : Nat → UInt8) (siz addr : Nat) (s : Nvm) : σ × Nvm :=
  if 64 ≤ siz then
    let r := readFlash addr flread 64 s
    signatureLoop (update ctx r.1 64) r.1 (siz - 64) ((addr + 64) % 2 ^ 24) r.2
  else if siz ≠ 0 then
    let r := readFlash addr flread siz s
    (update ctx r.1 siz, r.2)
  else (ctx, s)
termination_by siz

/-- `((uint24_t)d[0] << 16) | ((uint24_t)d[1] << 8) | d[2]` -/
def codeSize (d : Nat → UInt8) : Nat :=
  (d 0).toNat <<< 16 ||| (d 1).toNat <<< 8 ||| (d 2).toNat

/-- The first chunk as it is hashed: the user code's `GOTO` at 0 again, and 4..7 erased. -/
def originalHead (flread : Nat → UInt8) (k : Nat) : UInt8 :=
  if k < 4 then flread (k + 4) else if k < 8 then 0xFF else flread k

/-- `signature_valid` up to `sha256_final`, from the state `ctx`. -/
def signatureHash (ctx : σ) (L : Layout) (s : Nvm) : σ × Nvm :=
  let d := readFlash L.codeSizeOffset (fun _ => 0) codeSizeBytes s
  let siz := codeSize d.1
  let r := readFlash 0 (fun _ => 0) 64 d.2
  let siz := uint24Sub siz 64
  let flread := originalHead r.1
  signatureLoop update (update ctx flread 64) flread siz 64 r.2

end Hashed

def signatureValid (uECCVerify : List UInt8 → List UInt8 → List UInt8 → Bool) (L : Layout)
    (s : Nvm) : Bool × Nvm :=
  let r := signatureHash sha256Update sha256Init L s
  let cksum := sha256Final r.1
  let signat := readFlash L.signatOffset (fun _ => 0) signatSize r.2
  (uECCVerify ecPubKey cksum (Buf.toList signat.1 signatSize), signat.2)

/-- An update that collects what it is fed. -/
def collect (bytes : List UInt8) (data : Nat → UInt8) (len : Nat) : List UInt8 :=
  bytes ++ Buf.toList data len

/-- The bytes `signature_valid` feeds to SHA-256. -/
def hashedBytes (L : Layout) (s : Nvm) : List UInt8 :=
  -- not a projection, for which the kernel would evaluate the loop
  Function.uncurry (fun bytes _ => bytes) (signatureHash collect [] L s)

/-- The size in the metadata. -/
def storedSize (L : Layout) (f : Nat → UInt8) : Nat := codeSize fun k => f (L.codeSizeOffset + k)

/-- The signature in the metadata. -/
def storedSignat (L : Layout) (f : Nat → UInt8) : List UInt8 :=
  Buf.toList (fun k => f (L.signatOffset + k)) signatSize

end Pic18Boot
