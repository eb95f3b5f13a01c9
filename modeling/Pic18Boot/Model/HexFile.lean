import Mathlib.Data.UInt
import Pic18Boot.Model.Host
import Pic18Boot.Model.Layout

/-! # Intel HEX files

What a HEX file says, apart from what the tool does with it: its lines spell records (`HexLine`),
and `flashable` lists the data records the tool flashes, at the addresses it gives them. -/

namespace Pic18Boot

/-- The value of a hexadecimal digit of either case. -/
def hexValue (c : Char) : Option Nat :=
  if '0'.toNat ≤ c.toNat ∧ c.toNat ≤ '9'.toNat then some (c.toNat - '0'.toNat)
  else if 'A'.toNat ≤ c.toNat ∧ c.toNat ≤ 'F'.toNat then some (c.toNat - 'A'.toNat + 10)
  else if 'a'.toNat ≤ c.toNat ∧ c.toNat ≤ 'f'.toNat then some (c.toNat - 'a'.toNat + 10)
  else none

structure HexRecord where
  offset : Nat
  /-- 0 data, 1 end of file, 4 extended linear address; 2, 3 and 5 do not concern the tool. -/
  type : Nat
  data : List UInt8
  offset_lt : offset < 2 ^ 16
  type_le : type ≤ 5
  length_lt : data.length < 2 ^ 8
  length_ext : type = 4 → data.length = 2

/-- The bytes a record is written as, before its checksum. -/
def HexRecord.bytes (r : HexRecord) : List UInt8 :=
  [UInt8.ofNat r.data.length, UInt8.ofNat (r.offset / 256), UInt8.ofNat r.offset,
    UInt8.ofNat r.type] ++ r.data

/-- The text begins with the bytes, two digits each. -/
inductive Spells : List Char → List UInt8 → Prop
  | nil {text} : Spells text []
  | cons {hi lo text b bytes x y} : hexValue hi = some x → hexValue lo = some y →
    x * 16 + y = b.toNat → Spells text bytes → Spells (hi :: lo :: text) (b :: bytes)

/-- The line is the record; the checksum and the line end follow. -/
inductive HexLine : Line → HexRecord → Prop
  | intro {text r} : Spells text r.bytes → HexLine (':' :: text) r

/-- The line is the record, two digits for each byte and no more; the last byte is the checksum,
with which the bytes add up to 0. -/
inductive CheckedLine : Line → HexRecord → Prop
  | intro {text r cksum} : Spells text (r.bytes ++ [cksum]) →
    text.length = 2 * (r.bytes.length + 1) →
    ((r.bytes ++ [cksum]).map UInt8.toNat).sum % 256 = 0 → CheckedLine (':' :: text ++ ['\n']) r

/-- The data records the tool does not ignore, up to the end-of-file record. -/
def flashable : Nat → Bool → List HexRecord → List (Nat × List UInt8)
  | _, _, [] => []
  | upper, ignored, r :: rs =>
    if r.type = 0 then
      if ignored then flashable upper ignored rs
      else (upper * 2 ^ 16 + r.offset, r.data) :: flashable upper ignored rs
    else if r.type = 1 then []
    else if r.type = 4 then
      -- the tool reads the low byte of the upper address
      let low := (r.data.getD 1 0).toNat
      if low > 0x10 then flashable upper true rs else flashable low false rs
    else flashable upper ignored rs

/-- A HEX file with an end-of-file record, and its flashable data. -/
inductive HexFile : List Line → List (Nat × List UInt8) → Prop
  | intro {file rs} : List.Forall₂ HexLine file rs → (∃ r ∈ rs, r.type = 1) →
    HexFile file (flashable 0 false rs)

/-- The end of a record. -/
def recEnd (r : Nat × List UInt8) : Nat := r.1 + r.2.length

theorem recEnd_eq (r : Nat × List UInt8) : recEnd r = r.1 + r.2.length := rfl

/-- A record appended to an image, the gap before it filled. -/
def extendImage (img : List UInt8) (r : Nat × List UInt8) : List UInt8 :=
  img ++ List.replicate (r.1 - img.length) 0xFF ++ r.2

/-- The contiguous image of ascending records. -/
def image (recs : List (Nat × List UInt8)) : List UInt8 := recs.foldl extendImage []

/-- The images the tool can sign: ascending disjoint records of 1 to 63 bytes, the first at address
0 with the user code's `GOTO` and nothing else below 8, that end below the metadata. -/
structure Signable (L : Layout) (recs : List (Nat × List UInt8)) : Prop where
  length : ∀ r ∈ recs, 1 ≤ r.2.length ∧ r.2.length ≤ 63
  ascending : recs.Pairwise fun r r' => recEnd r ≤ r'.1
  first : ∃ data rest, recs = (0, data) :: rest ∧ 4 ≤ data.length ∧
    (∀ k b, 4 ≤ k → k < 8 → data[k]? = some b → b = 0xFF) ∧ ∀ r ∈ rest, 8 ≤ r.1
  below : ∀ r ∈ recs, recEnd r < L.signatOffset
  /-- The size the tool sends. -/
  total : 64 ≤ (image recs).length

end Pic18Boot
