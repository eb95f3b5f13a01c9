import Pic18Boot.Model.Vli

/-! # `curve-specific.inc` and the point operations of `uECC.c`

Only secp256k1 is compiled in, so the pointers `double_jacobian`, `mod_sqrt` and `x_side` of a curve
are its functions. `mmod_fast` stays a field: what a build at another `uECC_OPTIMIZATION_LEVEL`
calls in its place is then another curve. A function returns `none` where a call it makes does not
return. -/

namespace Pic18Boot

/-- `struct uECC_Curve_t` -/
structure UECCCurve where
  numWords : Nat
  numBytes : Nat
  numNBits : Nat
  (p n : Vli)
  G : Vli
  b : Vli
  mmodFast : Vli → Option Vli

abbrev numWordsSecp256k1 : Nat := 8
abbrev numBytesSecp256k1 : Nat := 32

def secp256k1P : Vli :=
  [0xFFFFFC2F, 0xFFFFFFFE, 0xFFFFFFFF, 0xFFFFFFFF, 0xFFFFFFFF, 0xFFFFFFFF, 0xFFFFFFFF, 0xFFFFFFFF]

def secp256k1N : Vli :=
  [0xD0364141, 0xBFD25E8C, 0xAF48A03B, 0xBAAEDCE6, 0xFFFFFFFE, 0xFFFFFFFF, 0xFFFFFFFF, 0xFFFFFFFF]

def secp256k1G : Vli :=
  [0x16F81798, 0x59F2815B, 0x2DCE28D9, 0x029BFCDB, 0xCE870B07, 0x55A06295, 0xF9DCBBAC, 0x79BE667E,
   0xFB10D4B8, 0x9C47D08F, 0xA6855419, 0xFD17B448, 0x0E1108A8, 0x5DA4FBFC, 0x26A3C465, 0x483ADA77]

def secp256k1B : Vli := [7, 0, 0, 0, 0, 0, 0, 0]

/-- One pass of the loop of `omega_mult_secp256k1`. -/
def omegaWord (word carry : UInt32) : UInt32 × UInt32 :=
  let p := (0x3D1 : UInt64) * word.toUInt64 + carry.toUInt64
  (p.toUInt32, (p >>> 32).toUInt32)

/-- The two words more than `right` has are written as well. -/
def omegaMultSecp256k1 (result right : Vli) : Vli :=
  let r := ripple omegaWord right 0
  let low := r.1 ++ [r.2]
  -- add the 2^32 multiple
  let s := vliAdd (low.drop 1) right
  low.take 1 ++ s.1 ++ [s.2] ++ result.drop (2 + numWordsSecp256k1)

def vliMmodFastSecp256k1 (product : Vli) : Vli :=
  let tmp := vliClear numWordsSecp256k1 ++ vliClear numWordsSecp256k1
  let tmp := omegaMultSecp256k1 tmp (product.drop numWordsSecp256k1)
  let r := vliAdd (product.take numWordsSecp256k1) (tmp.take numWordsSecp256k1)
  let product := vliClear numWordsSecp256k1 ++ product.drop numWordsSecp256k1
  let product := omegaMultSecp256k1 product (tmp.drop numWordsSecp256k1)
  let r' := vliAdd r.1 (product.take numWordsSecp256k1)
  let carry := r.2 + r'.2
  let result := Nat.fold carry.toNat (fun _ _ result => (vliSub result secp256k1P).1) r'.1
  if vliCmpUnsafe result secp256k1P > 0 then (vliSub result secp256k1P).1 else result

/-- `curve_secp256k1` -/
def curveSecp256k1 : UECCCurve where
  numWords := numWordsSecp256k1
  numBytes := numBytesSecp256k1
  numNBits := 256
  p := secp256k1P
  n := secp256k1N
  G := secp256k1G
  b := secp256k1B
  mmodFast product := some (vliMmodFastSecp256k1 product)

variable (curve : UECCCurve)

def vliModMultFast (left right : Vli) : Option Vli :=
  curve.mmodFast (vliMult left right curve.numWords)

def vliModSquareFast (left : Vli) : Option Vli := vliModMultFast curve left left

/-- Double in place. -/
def doubleJacobianSecp256k1 (x1 y1 z1 : Vli) : Option (Vli × Vli × Vli) :=
  if vliIsZero z1 then some (x1, y1, z1)
  else do
    let t5 ← vliModSquareFast curve y1
    let t4 ← vliModMultFast curve x1 t5
    let x1 ← vliModSquareFast curve x1
    let t5 ← vliModSquareFast curve t5
    let z1 ← vliModMultFast curve y1 z1
    let y1 := vliModAdd x1 x1 curve.p
    let y1 := vliModAdd y1 x1 curve.p
    let y1 :=
      if vliTestBit y1 0 then
        let r := vliAdd y1 curve.p
        orTop (vliRshift1 r.1) (r.2 <<< 31)
      else vliRshift1 y1
    let x1 ← vliModSquareFast curve y1
    let x1 := vliModSub x1 t4 curve.p
    let x1 := vliModSub x1 t4 curve.p
    let t4 := vliModSub t4 x1 curve.p
    let y1 ← vliModMultFast curve y1 t4
    let y1 := vliModSub y1 t5 curve.p
    pure (x1, y1, z1)

def xSideSecp256k1 (x : Vli) : Option Vli := do
  let result ← vliModSquareFast curve x
  let result ← vliModMultFast curve result x
  pure (vliModAdd result curve.b curve.p)

/-- The loop of `mod_sqrt_default`, its counter from `i + 1` down to 2. -/
def modSqrtLoop (p1 a : Vli) : Nat → Vli → Option Vli
  | 0, lResult | 1, lResult => some lResult
  | i + 2, lResult => do
    let lResult ← vliModSquareFast curve lResult
    let lResult ← if vliTestBit p1 (i + 2) then vliModMultFast curve lResult a else pure lResult
    modSqrtLoop p1 a (i + 1) lResult

def modSqrtDefault (a : Vli) : Option Vli :=
  let one := (vliClear curve.numWords).set 0 1
  let p1 := (vliAdd curve.p one).1
  modSqrtLoop curve p1 a (vliNumBits p1 - 1) one

/-- Modify (x1, y1) => (x1 * z^2, y1 * z^3) -/
def applyZ (x1 y1 z : Vli) : Option (Vli × Vli) := do
  let t1 ← vliModSquareFast curve z
  let x1 ← vliModMultFast curve x1 t1
  let t1 ← vliModMultFast curve t1 z
  let y1 ← vliModMultFast curve y1 t1
  pure (x1, y1)

/-- Input P = (x1, y1, Z), Q = (x2, y2, Z); output P' = (x1', y1', Z3), P + Q = (x3, y3, Z3). -/
def xyczAdd (x1 y1 x2 y2 : Vli) : Option (Vli × Vli × Vli × Vli) := do
  let t5 := vliModSub x2 x1 curve.p
  let t5 ← vliModSquareFast curve t5
  let x1 ← vliModMultFast curve x1 t5
  let x2 ← vliModMultFast curve x2 t5
  let y2 := vliModSub y2 y1 curve.p
  let t5 ← vliModSquareFast curve y2
  let t5 := vliModSub t5 x1 curve.p
  let t5 := vliModSub t5 x2 curve.p
  let x2 := vliModSub x2 x1 curve.p
  let y1 ← vliModMultFast curve y1 x2
  let x2 := vliModSub x1 t5 curve.p
  let y2 ← vliModMultFast curve y2 x2
  let y2 := vliModSub y2 y1 curve.p
  let x2 := t5
  pure (x1, y1, x2, y2)

/-- `EccPoint_isZero` -/
def eccPointIsZero (point : Vli) : Bool := vliIsZero point

def uECCValidPoint (point : Vli) : Option Bool :=
  let x := point.take curve.numWords
  let y := point.drop curve.numWords
  -- the point at infinity is invalid
  if eccPointIsZero point then some false
  -- x and y must be smaller than p
  else if vliCmpUnsafe curve.p x ≠ 1 ∨ vliCmpUnsafe curve.p y ≠ 1 then some false
  else do
    let tmp1 ← vliModSquareFast curve y
    let tmp2 ← xSideSecp256k1 curve x
    pure (vliEqual tmp1 tmp2)

/-- The point that the bytes of a public key are loaded into. -/
def publicPoint (publicKey : List UInt8) : Vli :=
  vliBytesToNative publicKey curve.numBytes ++
    vliBytesToNative (publicKey.drop curve.numBytes) curve.numBytes

def uECCValidPublicKey (publicKey : List UInt8) : Option Bool :=
  uECCValidPoint curve (publicPoint curve publicKey)

def uECCCompress (publicKey : List UInt8) : List UInt8 :=
  (2 + (publicKey.getD (curve.numBytes * 2 - 1) 0 &&& 0x01)) :: publicKey.take curve.numBytes

def uECCDecompress (compressed : List UInt8) : Option (List UInt8) := do
  let x := vliBytesToNative (compressed.drop 1) curve.numBytes
  let y ← xSideSecp256k1 curve x
  let y ← modSqrtDefault curve y
  let y := if y.getD 0 0 &&& 0x01 ≠ (compressed.getD 0 0 &&& 0x01).toUInt32 then
    (vliSub curve.p y).1 else y
  pure (vliNativeToBytes curve.numBytes x ++ vliNativeToBytes curve.numBytes y)

end Pic18Boot
