import Pic18Boot.Model.Curve

/-! # ECDSA verification in `uECC.c` -/

namespace Pic18Boot

/-- `BITS_TO_WORDS` -/
def bitsToWords (numBits : Nat) : Nat := (numBits + (wordSize * 8 - 1)) / (wordSize * 8)

/-- `BITS_TO_BYTES` -/
def bitsToBytes (numBits : Nat) : Nat := (numBits + 7) / 8

/-- One pass of the loop that drops the low `shift` bits, the carry first. -/
def shiftDownWord (shift : Nat) (temp carry : UInt32) : UInt32 × UInt32 :=
  (temp <<< UInt32.ofNat (wordBits - shift), temp >>> UInt32.ofNat shift ||| carry)

def bits2int (bits : List UInt8) (bitsSize : Nat) (curve : UECCCurve) : Vli :=
  let numNBytes := bitsToBytes curve.numNBits
  let numNWords := bitsToWords curve.numNBits
  let bitsSize := if bitsSize > numNBytes then numNBytes else bitsSize
  let loaded := vliBytesToNative bits bitsSize
  let native := loaded ++ (vliClear numNWords).drop loaded.length
  if bitsSize * 8 ≤ curve.numNBits then native
  else
    let shift := bitsSize * 8 - curve.numNBits
    let native := (List.mapAccumr (shiftDownWord shift) native 0).2
    -- Reduce mod curve_n
    if vliCmpUnsafe curve.n native ≠ 1 then (vliSub native curve.n).1 else native

def smax (a b : Nat) : Nat := if a > b then a else b

/-- `points[index]`, where bit 0 of the index is that of `u1` and bit 1 that of `u2`. -/
def shamirPoint (g pub sum : Vli) : Bool → Bool → Option Vli
  | false, false => none
  | true, false => some g
  | false, true => some pub
  | true, true => some sum

section
variable (curve : UECCCurve) (u1 u2 pub sum : Vli)

/-- The loop of `uECC_verify`, its counter from `i - 1` down to 0. -/
def shamirLoop : Nat → Vli → Vli → Vli → Option (Vli × Vli × Vli)
  | 0, rx, ry, z => some (rx, ry, z)
  | i + 1, rx, ry, z => do
    let (rx, ry, z) ← doubleJacobianSecp256k1 curve rx ry z
    match shamirPoint curve.G pub sum (vliTestBit u1 i) (vliTestBit u2 i) with
    | none => shamirLoop i rx ry z
    | some point => do
      let (tx, ty) ← applyZ curve (point.take curve.numWords) (point.drop curve.numWords) z
      let tz := vliModSub rx tx curve.p
      let (_, _, rx, ry) ← xyczAdd curve tx ty rx ry
      let z ← vliModMultFast curve z tz
      shamirLoop i rx ry z

/-- The point `G + Q` in affine coordinates. -/
def shamirSum : Option Vli := do
  let x := pub.take curve.numWords
  let y := pub.drop curve.numWords
  let tx := curve.G.take curve.numWords
  let ty := curve.G.drop curve.numWords
  let z := vliModSub x tx curve.p
  let (_, _, x, y) ← xyczAdd curve tx ty x y
  let z ← vliModInv z curve.p
  let (x, y) ← applyZ curve x y z
  pure (x ++ y)

/-- Shamir's trick: the affine `x` coordinate of `u1*G + u2*Q`. -/
def shamirX : Option Vli := do
  let sum ← shamirSum curve pub
  let numBits := smax (vliNumBits u1) (vliNumBits u2)
  -- the highest bit of one of the two is set
  let point := (shamirPoint curve.G pub sum (vliTestBit u1 (numBits - 1))
    (vliTestBit u2 (numBits - 1))).getD []
  let one := (vliClear curve.numWords).set 0 1
  let (rx, ry, z) ← shamirLoop curve u1 u2 pub sum (numBits - 1) (point.take curve.numWords)
    (point.drop curve.numWords) one
  let z ← vliModInv z curve.p
  let (rx, _) ← applyZ curve rx ry z
  pure rx

end

def uECCVerify (publicKey messageHash : List UInt8) (hashSize : Nat) (signature : List UInt8)
    (curve : UECCCurve) : Option Bool :=
  let numNWords := bitsToWords curve.numNBits
  let pub := publicPoint curve publicKey
  let r := vliBytesToNative signature curve.numBytes
  let s := vliBytesToNative (signature.drop curve.numBytes) curve.numBytes
  -- r, s must not be 0
  if vliIsZero r || vliIsZero s then some false
  -- r, s must be < n
  else if vliCmpUnsafe curve.n r ≠ 1 ∨ vliCmpUnsafe curve.n s ≠ 1 then some false
  else do
    let z ← vliModInv s curve.n
    let u1 := vliModMult (bits2int messageHash hashSize curve) z curve.n numNWords
    let u2 := vliModMult r z curve.n numNWords
    let rx ← shamirX curve u1 u2 pub
    -- v = x1 (mod n)
    let v := if vliCmpUnsafe curve.n rx ≠ 1 then (vliSub rx curve.n).1 else rx
    -- Accept only if v == r
    pure (vliEqual v r)

end Pic18Boot
