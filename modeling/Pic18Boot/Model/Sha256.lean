import Pic18Boot.Theory.Loop

/-! # `sha256.c`

`BYTE` is `UInt8`, `WORD` is `UInt32`; the counters `datalen` and `i` stay below 65 and are `Nat`. A
byte array is a function from its indices. -/

namespace Pic18Boot

def rotright (a b : UInt32) : UInt32 := a >>> b ||| a <<< (32 - b)

def ch (x y z : UInt32) : UInt32 := (x &&& y) ^^^ (~~~x &&& z)
def maj (x y z : UInt32) : UInt32 := (x &&& y) ^^^ (x &&& z) ^^^ (y &&& z)
def ep0 (x : UInt32) : UInt32 := rotright x 2 ^^^ rotright x 13 ^^^ rotright x 22
def ep1 (x : UInt32) : UInt32 := rotright x 6 ^^^ rotright x 11 ^^^ rotright x 25
def sig0 (x : UInt32) : UInt32 := rotright x 7 ^^^ rotright x 18 ^^^ x >>> 3
def sig1 (x : UInt32) : UInt32 := rotright x 17 ^^^ rotright x 19 ^^^ x >>> 10

/-- The table `k`. -/
def sha256K : Array UInt32 := #[
  0x428a2f98, 0x71374491, 0xb5c0fbcf, 0xe9b5dba5, 0x3956c25b, 0x59f111f1, 0x923f82a4, 0xab1c5ed5,
  0xd807aa98, 0x12835b01, 0x243185be, 0x550c7dc3, 0x72be5d74, 0x80deb1fe, 0x9bdc06a7, 0xc19bf174,
  0xe49b69c1, 0xefbe4786, 0x0fc19dc6, 0x240ca1cc, 0x2de92c6f, 0x4a7484aa, 0x5cb0a9dc, 0x76f988da,
  0x983e5152, 0xa831c66d, 0xb00327c8, 0xbf597fc7, 0xc6e00bf3, 0xd5a79147, 0x06ca6351, 0x14292967,
  0x27b70a85, 0x2e1b2138, 0x4d2c6dfc, 0x53380d13, 0x650a7354, 0x766a0abb, 0x81c2c92e, 0x92722c85,
  0xa2bfe8a1, 0xa81a664b, 0xc24b8b70, 0xc76c51a3, 0xd192e819, 0xd6990624, 0xf40e3585, 0x106aa070,
  0x19a4c116, 0x1e376c08, 0x2748774c, 0x34b0bcb5, 0x391c0cb3, 0x4ed8aa4a, 0x5b9cca4f, 0x682e6ff3,
  0x748f82ee, 0x78a5636f, 0x84c87814, 0x8cc70208, 0x90befffa, 0xa4506ceb, 0xbef9a3f7, 0xc67178f2]

/-- The eight words of a state. -/
structure ShaWords where
  (a b c d e f g h : UInt32)

/-- `SHA256_CTX` -/
structure Sha256Ctx where
  data : Nat → UInt8
  datalen : Nat
  bitlen : UInt64
  state : ShaWords

/-- The array `m`. -/
def sha256Schedule (data : Nat → UInt8) : Array UInt32 :=
  let m := Array.ofFn fun i : Fin 16 =>
    (data (4 * i)).toUInt32 <<< 24 ||| (data (4 * i + 1)).toUInt32 <<< 16 |||
      (data (4 * i + 2)).toUInt32 <<< 8 ||| (data (4 * i + 3)).toUInt32
  Nat.fold 48 (fun n _ m =>
    let i := n + 16
    m.push (sig1 (m.getD (i - 2) 0) + m.getD (i - 7) 0 + sig0 (m.getD (i - 15) 0) +
      m.getD (i - 16) 0)) m

/-- One pass of the compression loop. -/
def sha256Round (m : Array UInt32) (i : Nat) (w : ShaWords) : ShaWords :=
  let t1 := w.h + ep1 w.e + ch w.e w.f w.g + sha256K.getD i 0 + m.getD i 0
  let t2 := ep0 w.a + maj w.a w.b w.c
  { h := w.g, g := w.f, f := w.e, e := w.d + t1, d := w.c, c := w.b, b := w.a, a := t1 + t2 }

def sha256Transform (data : Nat → UInt8) (s : ShaWords) : ShaWords :=
  let m := sha256Schedule data
  let w := Nat.fold 64 (fun i _ w => sha256Round m i w) s
  { a := s.a + w.a, b := s.b + w.b, c := s.c + w.c, d := s.d + w.d,
    e := s.e + w.e, f := s.f + w.f, g := s.g + w.g, h := s.h + w.h }

def sha256Init : Sha256Ctx where
  -- not initialised; a byte is written before the block it belongs to is read
  data _ := 0
  datalen := 0
  bitlen := 0
  state :=
    { a := 0x6a09e667, b := 0xbb67ae85, c := 0x3c6ef372, d := 0xa54ff53a,
      e := 0x510e527f, f := 0x9b05688c, g := 0x1f83d9ab, h := 0x5be0cd19 }

/-- One pass of the loop of `sha256_update`. -/
def sha256UpdateByte (ctx : Sha256Ctx) (byte : UInt8) : Sha256Ctx :=
  let data := Function.update ctx.data ctx.datalen byte
  if ctx.datalen + 1 = 64 then
    { data, datalen := 0, bitlen := ctx.bitlen + 512, state := sha256Transform data ctx.state }
  else { ctx with data, datalen := ctx.datalen + 1 }

def sha256Update (ctx : Sha256Ctx) (data : Nat → UInt8) (len : Nat) : Sha256Ctx :=
  Nat.fold len (fun i _ ctx => sha256UpdateByte ctx (data i)) ctx

/-- The bytes `lo..hi` of an array set to `v`. -/
def memset (data : Nat → UInt8) (lo hi : Nat) (v : UInt8) (k : Nat) : UInt8 :=
  if lo ≤ k ∧ k < hi then v else data k

/-- The four bytes of a word, highest first. -/
def wordBytes (w : UInt32) : List UInt8 :=
  [(w >>> 24).toUInt8, (w >>> 16).toUInt8, (w >>> 8).toUInt8, w.toUInt8]

def sha256Final (ctx : Sha256Ctx) : List UInt8 :=
  let marked := Function.update ctx.data ctx.datalen 0x80
  let (data, state) :=
    if ctx.datalen < 56 then (memset marked (ctx.datalen + 1) 56 0, ctx.state)
    else
      let data := memset marked (ctx.datalen + 1) 64 0
      (memset data 0 56 0, sha256Transform data ctx.state)
  let bitlen := ctx.bitlen + UInt64.ofNat (ctx.datalen * 8)
  let data := fun k => if 56 ≤ k ∧ k < 64 then (bitlen >>> UInt64.ofNat ((63 - k) * 8)).toUInt8
    else data k
  let s := sha256Transform data state
  [s.a, s.b, s.c, s.d, s.e, s.f, s.g, s.h].flatMap wordBytes

/-- The digest of a byte string. -/
def sha256 (bytes : List UInt8) : List UInt8 :=
  sha256Final (bytes.foldl sha256UpdateByte sha256Init)

end Pic18Boot
