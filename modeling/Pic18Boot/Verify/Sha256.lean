import Mathlib.Tactic.IntervalCases
import Pic18Boot.Theory.MerkleDamgard
import Pic18Boot.Verify.Bytes
import Pic18Boot.Verify.Signature

/-! # SHA-256 over a stream

`sha256_update` may be fed in any pieces: the digest is that of the concatenation, padded and hashed
block by block (`sha256_pieces`). Images with one digest are one image, or `sha256_transform`
collides (`sha256_covers`). -/

namespace Pic18Boot

open MerkleDamgard

variable {L : Layout} {s t : Nvm} {ctx : Sha256Ctx} {msg bytes block : List UInt8} {b : UInt8}
variable {data data' : Nat → UInt8} {w v : ShaWords} {n m k : Nat}

/-! ### The compression function -/

/-- `sha256_transform` on a block. -/
def compress (w : ShaWords) (block : List UInt8) : ShaWords :=
  sha256Transform (fun k => block.getD k 0) w

/-- Only the 64 bytes of the block are read. -/
theorem sha256Transform_congr (h : ∀ k < 64, data k = data' k) :
    sha256Transform data w = sha256Transform data' w := by
  have hm : sha256Schedule data = sha256Schedule data' := by
    have hwords : ∀ i : Fin 16,
        (data (4 * i)).toUInt32 <<< 24 ||| (data (4 * i + 1)).toUInt32 <<< 16 |||
            (data (4 * i + 2)).toUInt32 <<< 8 ||| (data (4 * i + 3)).toUInt32 =
          (data' (4 * i)).toUInt32 <<< 24 ||| (data' (4 * i + 1)).toUInt32 <<< 16 |||
            (data' (4 * i + 2)).toUInt32 <<< 8 ||| (data' (4 * i + 3)).toUInt32 := fun i => by
      rw [h _ (by omega), h _ (by omega), h _ (by omega), h _ (by omega)]
    rw [sha256Schedule, sha256Schedule, funext hwords]
  rw [sha256Transform, sha256Transform, hm]

theorem sha256Transform_eq (h : Buf.toList data 64 = block) :
    sha256Transform data w = compress w block := by
  refine sha256Transform_congr fun k hk => ?_
  rw [← h, List.getD_eq_getElem?_getD, Buf.getElem?_toList hk]
  rfl

/-! ### The padding -/

/-- The length in bits, as eight bytes. -/
def bitLength (n : Nat) : List UInt8 :=
  Buf.toList (fun k => UInt8.ofNat (8 * n / 2 ^ (8 * (7 - k)))) 8

def sha256Padding : Padding UInt8 where
  mark := 0x80
  fill := 0
  width := 8
  field := bitLength
  length_field _ := Buf.length_toList

theorem bigEndian_bitLength : bigEndian (bitLength n) = 8 * n % 2 ^ 64 := by
  simp only [bitLength, bigEndian, Buf.toList, List.range_succ, List.range_zero, List.nil_append,
    List.map_cons, List.map_nil, List.cons_append, List.reverse_cons, List.reverse_nil,
    Digits.value_cons, Digits.value_nil, octet_base, octet_digit,
    UInt8.toNat_ofNat']
  omega

/-- The field tells apart the lengths it has room for. -/
theorem bitLength_inj (hn : n < 2 ^ 61) (hm : m < 2 ^ 61) (h : bitLength n = bitLength m) :
    n = m := by
  have := congrArg bigEndian h
  rw [bigEndian_bitLength, bigEndian_bitLength] at this
  omega

/-- The bytes `sha256_final` writes for the count of bits. -/
theorem bitlen_byte (h : 56 ≤ k) (hk : k < 64) :
    (UInt64.ofNat n >>> UInt64.ofNat ((63 - k) * 8)).toUInt8 =
      UInt8.ofNat (n / 2 ^ (8 * (63 - k))) := by
  obtain ⟨j, hj, hk⟩ : ∃ j < 8, 63 - k = j := ⟨63 - k, by omega, rfl⟩
  rw [← UInt8.toNat_inj, hk, UInt64.toNat_toUInt8, UInt64.toNat_shiftRight, UInt64.toNat_ofNat',
    UInt64.toNat_ofNat', UInt8.toNat_ofNat', Nat.shiftRight_eq_div_pow,
    Nat.mod_eq_of_lt (a := j * 8) (by omega), Nat.mod_eq_of_lt (a := j * 8) (by omega),
    Nat.mul_comm j 8]
  interval_cases j <;> omega

/-! ### The context -/

/-- The bytes of a digest. -/
def ShaWords.digest (w : ShaWords) : List UInt8 :=
  [w.a, w.b, w.c, w.d, w.e, w.f, w.g, w.h].flatMap wordBytes

/-- The context after `msg` has been fed. -/
structure Fed (msg : List UInt8) (ctx : Sha256Ctx) : Prop where
  state : ctx.state = absorb compress 64 sha256Init.state msg
  datalen : ctx.datalen = msg.length % 64
  data : Buf.toList ctx.data ctx.datalen = residue 64 msg
  bitlen : ctx.bitlen = UInt64.ofNat (512 * (msg.length / 64))

theorem Fed.init : Fed [] sha256Init := ⟨rfl, rfl, rfl, rfl⟩

theorem Fed.updateByte (h : Fed msg ctx) : Fed (msg ++ [b]) (sha256UpdateByte ctx b) := by
  obtain ⟨hstate, hlen, hdata, hbit⟩ := h
  have hnew : Buf.toList (Function.update ctx.data ctx.datalen b) (ctx.datalen + 1) =
      residue 64 msg ++ [b] := by
    rw [Buf.toList_succ, Function.update_self, ← hdata]
    congr 1
    exact Buf.toList_congr fun k hk => Function.update_of_ne hk.ne ..
  have hadd : (msg ++ [b]).length = msg.length + 1 := List.length_append
  rw [sha256UpdateByte]
  rcases absorb_concat (show 0 < 64 by decide) compress sha256Init.state msg b with
    ⟨hlt, habs, hres⟩ | ⟨hfull, habs, hres⟩
  · rw [if_neg (by omega)]
    refine ⟨hstate.trans habs.symm, ?_, hnew.trans hres.symm, ?_⟩
    · change ctx.datalen + 1 = _
      omega
    · rw [hadd, show (msg.length + 1) / 64 = msg.length / 64 by omega]
      exact hbit
  · rw [if_pos (by omega)]
    refine ⟨?_, ?_, hres.symm, ?_⟩
    · rw [habs, ← hstate]
      refine sha256Transform_eq ?_
      rw [← hnew, hlen, hfull]
    · change 0 = _
      omega
    · change ctx.bitlen + 512 = _
      rw [hbit, hadd, show (msg.length + 1) / 64 = msg.length / 64 + 1 by omega, Nat.mul_succ,
        UInt64.ofNat_add]
      rfl

theorem Fed.foldl (h : Fed msg ctx) : Fed (msg ++ bytes) (bytes.foldl sha256UpdateByte ctx) := by
  induction bytes generalizing msg ctx with
  | nil => rwa [List.append_nil]
  | cons b bytes ih =>
    have := ih (h.updateByte (b := b))
    rwa [List.append_assoc] at this

/-- The bytes of the last block, as `sha256_final` leaves them. -/
theorem toList_final {head : List UInt8} (hhead : Buf.toList data 56 = head) :
    Buf.toList (fun k => if 56 ≤ k ∧ k < 64 then
        (UInt64.ofNat (8 * n) >>> UInt64.ofNat ((63 - k) * 8)).toUInt8 else data k) 64 =
      head ++ bitLength n := by
  have hlow : ∀ k < 56, (if 56 ≤ k ∧ k < 64 then
      (UInt64.ofNat (8 * n) >>> UInt64.ofNat ((63 - k) * 8)).toUInt8 else data k) = data k :=
    fun k hk => if_neg (by omega)
  have hhigh : ∀ k < 8, (if 56 ≤ 56 + k ∧ 56 + k < 64 then
      (UInt64.ofNat (8 * n) >>> UInt64.ofNat ((63 - (56 + k)) * 8)).toUInt8 else data (56 + k)) =
        UInt8.ofNat (8 * n / 2 ^ (8 * (7 - k))) := fun k hk => by
    rw [if_pos ⟨by omega, by omega⟩, bitlen_byte (k := 56 + k) (by omega) (by omega),
      show 63 - (56 + k) = 7 - k by omega]
  rw [Buf.toList_add (n := 56) (m := 8), Buf.toList_congr hlow, Buf.toList_congr hhigh, hhead,
    bitLength]

theorem toList_const {n : Nat} : Buf.toList (fun _ => b) n = List.replicate n b := by
  rw [Buf.toList, List.map_const', List.length_range]

/-- The mark and the filling, up to `n`. -/
theorem toList_marked (data : Nat → UInt8) (hk : k < n) :
    Buf.toList (memset (Function.update data k 0x80) (k + 1) n 0) n =
    Buf.toList data k ++ 0x80 :: List.replicate (n - (k + 1)) 0 := by
  obtain ⟨m, rfl⟩ := Nat.exists_eq_add_of_lt hk
  have hhead : ∀ j < k, memset (Function.update data k 0x80) (k + 1) (k + m + 1) 0 j = data j :=
    fun j hj => by rw [memset, if_neg (by omega), Function.update_of_ne (by omega)]
  have hmark : ∀ j < 1,
      memset (Function.update data k 0x80) (k + 1) (k + m + 1) 0 (k + j) = 0x80 := fun j hj => by
    rw [memset, if_neg (by omega), show k + j = k by omega, Function.update_self]
  have hfill : ∀ j < m,
      memset (Function.update data k 0x80) (k + 1) (k + m + 1) 0 (k + (1 + j)) = 0 :=
    fun j hj => if_pos (by omega)
  conv_lhs => rw [show k + m + 1 = k + (1 + m) by omega, Buf.toList_add, Buf.toList_add]
  rw [show k + (1 + m) = k + m + 1 by omega, Buf.toList_congr hhead, Buf.toList_congr hmark,
    Buf.toList_congr hfill, toList_const, toList_const, show k + m + 1 - (k + 1) = m by omega]
  rfl

/-- The digest is that of the padded message. -/
theorem Fed.final (h : Fed msg ctx) : sha256Final ctx =
    (absorb compress 64 sha256Init.state (sha256Padding.pad 64 msg)).digest := by
  obtain ⟨hstate, hlen, hdata, hbit⟩ := h
  have hmod := Nat.mod_lt msg.length (show 0 < 64 by decide)
  have hbits : ctx.bitlen + UInt64.ofNat (ctx.datalen * 8) = UInt64.ofNat (8 * msg.length) := by
    rw [hbit, hlen, ← UInt64.ofNat_add]
    congr 1
    omega
  have hpad : absorb compress 64 sha256Init.state (sha256Padding.pad 64 msg) =
      if msg.length % 64 + 8 < 64 then
        compress ctx.state (residue 64 msg ++
          0x80 :: List.replicate (64 - 8 - (msg.length % 64 + 1)) 0 ++ bitLength msg.length)
      else
        compress (compress ctx.state (residue 64 msg ++
          0x80 :: List.replicate (64 - (msg.length % 64 + 1)) 0))
          (List.replicate (64 - 8) 0 ++ bitLength msg.length) := by
    rw [hstate]
    exact sha256Padding.absorb_pad (by decide)
  rw [hpad, sha256Final]
  simp only [hbits]
  by_cases h56 : ctx.datalen < 56
  · rw [if_pos h56, if_pos (by omega)]
    have hblock := toList_final (n := msg.length) (toList_marked ctx.data h56)
    rw [hdata, hlen] at hblock
    rw [← sha256Transform_eq hblock, hlen]
    rfl
  · rw [if_neg h56, if_neg (by omega)]
    have hfirst := toList_marked ctx.data (show ctx.datalen < 64 by omega)
    rw [hdata, hlen] at hfirst
    have hzero : ∀ k < 56, memset (memset (Function.update ctx.data ctx.datalen 0x80)
        (ctx.datalen + 1) 64 0) 0 56 0 k = 0 := fun k hk => if_pos ⟨Nat.zero_le k, hk⟩
    have hblock := toList_final (n := msg.length) ((Buf.toList_congr hzero).trans toList_const)
    rw [hlen] at hblock
    rw [← sha256Transform_eq hfirst, ← sha256Transform_eq hblock, hlen]
    rfl

theorem sha256Update_eq : sha256Update ctx (fun k => bytes.getD k 0) bytes.length =
    bytes.foldl sha256UpdateByte ctx := by
  have hbytes : Buf.toList (fun k => bytes.getD k 0) bytes.length = bytes :=
    Buf.toList_eq_of_getElem? rfl fun k hk => by
      rw [List.getD_eq_getElem?_getD, List.getElem?_eq_getElem hk, Option.getD_some]
  rw [sha256Update, ← foldl_toList, hbytes]

/-- The context after any pieces is that after their concatenation. -/
theorem Fed.pieces {pieces : List (List UInt8)} (h : Fed msg ctx) : Fed (msg ++ pieces.flatten)
    (pieces.foldl (fun ctx p => sha256Update ctx (fun k => p.getD k 0) p.length) ctx) := by
  induction pieces generalizing msg ctx with
  | nil => rwa [List.flatten_nil, List.append_nil]
  | cons p pieces ih =>
    have hp : Fed (msg ++ p) (sha256Update ctx (fun k => p.getD k 0) p.length) := by
      rw [sha256Update_eq]
      exact h.foldl
    have := ih hp
    rwa [List.append_assoc] at this

/-- **The digest of a stream** that is fed in any pieces is that of the concatenation, padded and
hashed block by block. -/
theorem sha256_pieces (pieces : List (List UInt8)) :
    sha256Final (pieces.foldl
        (fun ctx p => sha256Update ctx (fun k => p.getD k 0) p.length) sha256Init) =
      (absorb compress 64 sha256Init.state (sha256Padding.pad 64 pieces.flatten)).digest :=
  Fed.final Fed.init.pieces

/-- The digest of `"abc"`. -/
example : sha256 [0x61, 0x62, 0x63] = [
    0xba, 0x78, 0x16, 0xbf, 0x8f, 0x01, 0xcf, 0xea, 0x41, 0x41, 0x40, 0xde, 0x5d, 0xae, 0x22, 0x23,
    0xb0, 0x03, 0x61, 0xa3, 0x96, 0x17, 0x7a, 0x9c, 0xb4, 0x10, 0xff, 0x61, 0xf2, 0x00, 0x15,
    0xad] := by
  decide +kernel

theorem sha256_eq : sha256 msg =
    (absorb compress 64 sha256Init.state (sha256Padding.pad 64 msg)).digest :=
  Fed.final Fed.init.foldl

/-! ### What a digest tells apart -/

theorem wordBytes_inj {x y : UInt32} (h : wordBytes x = wordBytes y) : x = y := by
  simp only [wordBytes, List.cons.injEq, and_true, ← UInt8.toNat_inj, UInt32.toNat_toUInt8,
    UInt32.toNat_shiftRight, Nat.shiftRight_eq_div_pow] at h
  obtain ⟨h3, h2, h1, h0⟩ := h
  change x.toNat / 2 ^ 24 % 2 ^ 8 = y.toNat / 2 ^ 24 % 2 ^ 8 at h3
  change x.toNat / 2 ^ 16 % 2 ^ 8 = y.toNat / 2 ^ 16 % 2 ^ 8 at h2
  change x.toNat / 2 ^ 8 % 2 ^ 8 = y.toNat / 2 ^ 8 % 2 ^ 8 at h1
  have hx := x.toNat_lt
  have hy := y.toNat_lt
  rw [← UInt32.toNat_inj]
  omega

theorem flatMap_wordBytes_inj {l r : List UInt32} (hlen : l.length = r.length)
    (h : l.flatMap wordBytes = r.flatMap wordBytes) : l = r := by
  induction l generalizing r with
  | nil => exact (List.eq_nil_of_length_eq_zero hlen.symm).symm
  | cons x l ih =>
    cases r with
    | nil => simp at hlen
    | cons y r =>
      rw [List.flatMap_cons, List.flatMap_cons] at h
      obtain ⟨hxy, hlr⟩ := List.append_inj h rfl
      rw [wordBytes_inj hxy, ih (Nat.succ.inj hlen) hlr]

theorem ShaWords.digest_inj (h : w.digest = v.digest) : w = v := by
  have := flatMap_wordBytes_inj (l := [w.a, w.b, w.c, w.d, w.e, w.f, w.g, w.h])
    (r := [v.a, v.b, v.c, v.d, v.e, v.f, v.g, v.h]) rfl h
  cases w
  cases v
  simpa using this

theorem length_hashedBytes (h : Sized L s.flash) : (hashedBytes L s).length < 2 ^ 61 := by
  have := h.2
  have := L.signatOffset_lt
  rw [hashedBytes_eq h, Buf.length_toList]
  omega

/-- **What the digest covers**: two flashes with one digest hold one image, or `sha256_transform`
has one value on two arguments among those of the two runs. -/
theorem sha256_covers (L : Layout) (s t : Nvm) (hs : Sized L s.flash) (ht : Sized L t.flash)
    (h : sha256 (hashedBytes L s) = sha256 (hashedBytes L t)) :
    (storedSize L s.flash = storedSize L t.flash ∧
        ∀ a, 4 ≤ a → a < storedSize L s.flash → s.flash a = t.flash a) ∨
      Collision compress sha256Init.state (blocks 64 (sha256Padding.pad 64 (hashedBytes L s)))
        (blocks 64 (sha256Padding.pad 64 (hashedBytes L t))) := by
  rw [sha256_eq, sha256_eq] at h
  refine (sha256Padding.exists_collision (by decide) (fun hfield => ?_)
    (ShaWords.digest_inj h)).imp_left fun himage => ?_
  · exact bitLength_inj (length_hashedBytes hs) (length_hashedBytes ht) hfield
  · have hsize := congrArg List.length himage
    rw [hashedBytes_eq hs, hashedBytes_eq ht, Buf.length_toList, Buf.length_toList] at hsize
    exact ⟨hsize, (hashedBytes_inj hs ht hsize).mp himage⟩

theorem sizedFlash_sized : Sized pic18f25k22 sizedFlash ∧
    Sized pic18f25k22 (Function.update sizedFlash 0 0) :=
  ⟨⟨by decide, by decide⟩, by decide, by decide⟩

/-- Another reset vector. -/
theorem sizedFlash_digest :
    (storedSize pic18f25k22 sizedFlash =
        storedSize pic18f25k22 (Function.update sizedFlash 0 0) ∧
      ∀ a, 4 ≤ a → a < storedSize pic18f25k22 sizedFlash →
        sizedFlash a = Function.update sizedFlash 0 0 a) ∨
      Collision compress sha256Init.state
        (blocks 64 (sha256Padding.pad 64 (hashedBytes pic18f25k22 (.powerUp sizedFlash))))
        (blocks 64 (sha256Padding.pad 64
          (hashedBytes pic18f25k22 (.powerUp (Function.update sizedFlash 0 0))))) := by
  obtain ⟨hs, ht⟩ := sizedFlash_sized
  refine sha256_covers pic18f25k22 (.powerUp sizedFlash)
    (.powerUp (Function.update sizedFlash 0 0)) hs ht (congrArg sha256 ?_)
  refine (hashedBytes_inj (s := .powerUp sizedFlash)
    (t := .powerUp (Function.update sizedFlash 0 0)) hs ht rfl).mpr fun a ha _ => ?_
  exact (Function.update_of_ne (by omega) ..).symm

end Pic18Boot
