import Mathlib.Data.List.DropRight
import Pic18Boot.Theory.Loop
import Pic18Boot.Theory.Positional

/-! # `uECC.c`: numbers of several words

XC8 is none of the platforms that `types.h` names, so `uECC_WORD_SIZE` is 4: `uECC_word_t` is
`UInt32` and `uECC_dword_t` is `UInt64`. A number is the list of its words, lowest first, and
`num_words` is the length of that list; an array of `2 * num_words` words is a list of that length.
A loop that carries from word to word upwards is `ripple`, one that carries downwards
`List.mapAccumr`. -/

namespace Pic18Boot

/-- `uECC_word_t *` with its `num_words` -/
abbrev Vli := List UInt32

abbrev wordBits : Nat := 32
abbrev wordSize : Nat := 4
abbrev highBitSet : UInt32 := 0x80000000

def vliClear (numWords : Nat) : Vli := List.replicate numWords 0

def vliIsZero (vli : Vli) : Bool := vli.foldl (fun bits word => bits ||| word) 0 == 0

def vliTestBit (vli : Vli) (bit : Nat) : Bool :=
  vli.getD (bit >>> 5) 0 &&& (1 : UInt32) <<< UInt32.ofNat (bit &&& 0x1F) != 0

def vliNumDigits (vli : Vli) : Nat := (vli.rdropWhile (· == 0)).length

/-- The loop of `uECC_vli_numBits` on the highest digit. -/
def digitBits (digit : UInt32) : Nat :=
  if digit = 0 then 0 else digitBits (digit >>> 1) + 1
termination_by digit.toNat
decreasing_by
  have := UInt32.toNat_inj.not.mpr ‹¬digit = 0›
  simp only [UInt32.toNat_shiftRight, UInt32.reduceToNat, Nat.reduceMod, Nat.shiftRight_one] at *
  omega

def vliNumBits (vli : Vli) : Nat :=
  let numDigits := vliNumDigits vli
  if numDigits = 0 then 0
  else (numDigits - 1) <<< 5 + digitBits (vli.getD (numDigits - 1) 0)

/-- The words are compared from the highest down to the first that differ. -/
def vliCmpUnsafe (left right : Vli) : Int :=
  (left.zip right).foldr (fun x higher =>
    if higher ≠ 0 then higher
    else if x.1 > x.2 then 1
    else if x.1 < x.2 then -1
    else 0) 0

def vliEqual (left right : Vli) : Bool :=
  (left.zip right).foldr (fun x diff => diff ||| (x.1 ^^^ x.2)) 0 == 0

/-- One pass of the loop of `uECC_vli_rshift1`, the carry first. -/
def rshift1Word (word carry : UInt32) : UInt32 × UInt32 := (word <<< 31, word >>> 1 ||| carry)

def vliRshift1 (vli : Vli) : Vli := (List.mapAccumr rshift1Word vli 0).2

/-- One pass of the loop of `uECC_vli_add`. -/
def addWord (x : UInt32 × UInt32) (carry : UInt32) : UInt32 × UInt32 :=
  let sum := x.1 + x.2 + carry
  (sum, if sum ≠ x.1 then if sum < x.1 then 1 else 0 else carry)

def vliAdd (left right : Vli) : Vli × UInt32 := ripple addWord (left.zip right) 0

/-- One pass of the loop of `uECC_vli_sub`. -/
def subWord (x : UInt32 × UInt32) (borrow : UInt32) : UInt32 × UInt32 :=
  let diff := x.1 - x.2 - borrow
  (diff, if diff ≠ x.1 then if diff > x.1 then 1 else 0 else borrow)

def vliSub (left right : Vli) : Vli × UInt32 := ripple subWord (left.zip right) 0

/-- The three words `r0`, `r1`, `r2`. -/
structure MulAcc where
  (r0 r1 r2 : UInt32)

def muladd (a b : UInt32) (r : MulAcc) : MulAcc :=
  let p := a.toUInt64 * b.toUInt64
  let r01 := (r.r1.toUInt64 <<< 32 ||| r.r0.toUInt64) + p
  { r2 := r.r2 + if r01 < p then 1 else 0
    r1 := (r01 >>> 32).toUInt32
    r0 := r01.toUInt32 }

/-- The inner loop for digit `k`, over `i` in `lo..hi`. -/
def multDigit (left right : Vli) (k lo hi : Nat) (r : MulAcc) : MulAcc :=
  Nat.fold (hi - lo) (fun j _ r =>
    muladd (left.getD (lo + j) 0) (right.getD (k - (lo + j)) 0) r) r

/-- What follows the inner loop: the digit is stored and the accumulator moves down a word. -/
def multStore (result : Vli) (r : MulAcc) : Vli × MulAcc :=
  (result ++ [r.r0], { r0 := r.r1, r1 := r.r2, r2 := 0 })

def vliMult (left right : Vli) (numWords : Nat) : Vli :=
  let st := Nat.fold numWords (fun k _ st =>
    multStore st.1 (multDigit left right k 0 (k + 1) st.2)) ([], { r0 := 0, r1 := 0, r2 := 0 })
  let st := Nat.fold (numWords - 1) (fun j _ st =>
    let k := numWords + j
    multStore st.1 (multDigit left right k (k + 1 - numWords) numWords st.2)) st
  st.1 ++ [st.2.r0]

def vliModAdd (left right mod : Vli) : Vli :=
  let r := vliAdd left right
  if r.2 ≠ 0 ∨ vliCmpUnsafe mod r.1 ≠ 1 then (vliSub r.1 mod).1 else r.1

def vliModSub (left right mod : Vli) : Vli :=
  let r := vliSub left right
  if r.2 ≠ 0 then (vliAdd r.1 mod).1 else r.1

/-- One pass of the loop that shifts `mod` left by less than a word. -/
def shiftWord (bitShift : Nat) (word carry : UInt32) : UInt32 × UInt32 :=
  (word <<< UInt32.ofNat bitShift ||| carry, word >>> UInt32.ofNat (wordBits - bitShift))

/-- The word at the top with `bits` set in it. -/
def orTop (vli : Vli) (bits : UInt32) : Vli :=
  vli.set (vli.length - 1) (vli.getD (vli.length - 1) 0 ||| bits)

/-- `mod_multiple` is shifted right by one as two halves of `num_words` words. -/
def halveMultiple (numWords : Nat) (modMultiple : Vli) : Vli :=
  orTop (vliRshift1 (modMultiple.take numWords)) (modMultiple.getD numWords 0 <<< 31) ++
    vliRshift1 (modMultiple.drop numWords)

/-- One pass of the main loop of `uECC_vli_mmod`, on `v[index]` and `mod_multiple`. The difference
goes to the other buffer, and `index` moves there unless there was a borrow. -/
def mmodPass (numWords : Nat) (st : Vli × Vli) : Vli × Vli :=
  let r := vliSub st.1 st.2
  (if r.2 = 0 then r.1 else st.1, halveMultiple numWords st.2)

def vliMmod (product mod : Vli) (numWords : Nat) : Vli :=
  let shift := numWords * 2 * wordBits - vliNumBits mod
  let wordShift := shift / wordBits
  let bitShift := shift % wordBits
  let modMultiple := vliClear wordShift ++
    if bitShift > 0 then (ripple (shiftWord bitShift) mod 0).1 else mod
  let st := Nat.fold (shift + 1) (fun _ _ st => mmodPass numWords st) (product, modMultiple)
  st.1.take numWords

def vliModMult (left right mod : Vli) (numWords : Nat) : Vli :=
  vliMmod (vliMult left right numWords) mod numWords

/-- `EVEN` -/
def vliEven (vli : Vli) : Bool := vli.getD 0 0 &&& 1 == 0

def modInvUpdate (uv mod : Vli) : Vli :=
  let r := if !vliEven uv then vliAdd uv mod else (uv, 0)
  let uv := vliRshift1 r.1
  if r.2 ≠ 0 then orTop uv highBitSet else uv

/-- The variables of the loop of `uECC_vli_modInv`. -/
structure ModInvVars where
  (a b u v : Vli)

/-- One pass of the loop. -/
def modInvPass (mod : Vli) (cmpResult : Int) (st : ModInvVars) : ModInvVars :=
  if vliEven st.a then
    { st with a := vliRshift1 st.a, u := modInvUpdate st.u mod }
  else if vliEven st.b then
    { st with b := vliRshift1 st.b, v := modInvUpdate st.v mod }
  else if cmpResult > 0 then
    let u := if vliCmpUnsafe st.u st.v < 0 then (vliAdd st.u mod).1 else st.u
    { st with a := vliRshift1 (vliSub st.a st.b).1, u := modInvUpdate (vliSub u st.v).1 mod }
  else
    let v := if vliCmpUnsafe st.v st.u < 0 then (vliAdd st.v mod).1 else st.v
    { st with b := vliRshift1 (vliSub st.b st.a).1, v := modInvUpdate (vliSub v st.u).1 mod }

/-- The loop, `none` when its test has been made `fuel` times without leaving it. -/
def modInvLoop (mod : Vli) : Nat → ModInvVars → Option Vli
  | 0, _ => none
  | fuel + 1, st =>
    let cmpResult := vliCmpUnsafe st.a st.b
    if cmpResult ≠ 0 then modInvLoop mod fuel (modInvPass mod cmpResult st) else some st.u

/-- Every pass halves `a` or `b`, so a run that ends makes at most two tests a bit and one more. -/
def vliModInv (input mod : Vli) : Option Vli :=
  let numWords := input.length
  if vliIsZero input then some (vliClear numWords)
  else
    modInvLoop mod (2 * wordBits * numWords + 1)
      { a := input, b := mod, u := (vliClear numWords).set 0 1, v := vliClear numWords }

def vliNativeToBytes (numBytes : Nat) (native : Vli) : List UInt8 :=
  (List.range numBytes).map fun i =>
    let b := numBytes - 1 - i
    (native.getD (b / wordSize) 0 >>> UInt32.ofNat (8 * (b % wordSize))).toUInt8

def vliBytesToNative (bytes : List UInt8) (numBytes : Nat) : Vli :=
  Nat.fold numBytes (fun i _ native =>
    let b := numBytes - 1 - i
    native.set (b / wordSize) (native.getD (b / wordSize) 0 |||
      (bytes.getD i 0).toUInt32 <<< UInt32.ofNat (8 * (b % wordSize))))
    (vliClear ((numBytes + (wordSize - 1)) / wordSize))

end Pic18Boot
