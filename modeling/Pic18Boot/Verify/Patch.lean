import Pic18Boot.Model.Patch
import Pic18Boot.Verify.HexFile

/-! # The record `btld-patch.py` writes

The first line of the patched file is the record of the `GOTO` at address 0 (`gotoLine_eq`), but for
the offsets at which the checksum comes out as 256 and takes three digits (`patch_record_iff`). -/

namespace Pic18Boot

variable {off n : Nat} {bytes : List UInt8} {line : Line} {r : HexRecord}

/-! ## Lines with their checksum -/

theorem length_hexText : (hexText bytes).length = 2 * bytes.length := by
  induction bytes with
  | nil => rfl
  | cons b bytes ih =>
    have hcons : hexText (b :: bytes) =
        [hexDigit (b.toNat / 16), hexDigit (b.toNat % 16)] ++ hexText bytes := rfl
    rw [hcons, List.length_append, ih, List.length_cons]
    simp only [List.length_cons, List.length_nil]
    omega

theorem length_bytes : r.bytes.length = r.data.length + 4 := by
  rw [HexRecord.bytes, List.length_append, Nat.add_comm]
  rfl

theorem sum_toNat : (bytes.map UInt8.toNat).sum % 256 = bytes.sum.toNat := by
  induction bytes with
  | nil => rfl
  | cons b bytes ih =>
    rw [List.map_cons, List.sum_cons, List.sum_cons, UInt8.toNat_add, ← ih, Nat.add_mod_mod]

theorem CheckedLine.length (h : CheckedLine line r) : line.length = 2 * r.data.length + 12 := by
  obtain ⟨-, hlen, -⟩ := h
  rw [length_bytes] at hlen
  simp only [List.length_append, List.length_cons, List.length_nil, hlen]
  omega

theorem HexRecord.toLine_checked (r : HexRecord) : CheckedLine r.toLine r := by
  have hspell : Spells (hexText (r.bytes ++ [0 - r.bytes.sum]) ++ [])
    (r.bytes ++ [0 - r.bytes.sum]) := spells_hexText
  rw [List.append_nil] at hspell
  apply CheckedLine.intro hspell
  · rw [length_hexText, List.length_append, List.length_singleton]
  · rw [sum_toNat, List.sum_append, List.sum_singleton, UInt8.add_comm, UInt8.sub_add_cancel]
    rfl

/-! ## The record of the `GOTO` -/

/-- The record at address 0 with the `GOTO` to `off`. -/
structure IsGotoRecord (off : Nat) (r : HexRecord) : Prop where
  count : r.data.length = 4
  offset : r.offset = 0
  type : r.type = 0
  target : gotoTarget (fun k => r.data.getD k 0) 0 = some off

def gotoRecord (off : Nat) : HexRecord :=
  { byteRecord with
    data := (List.range 4).map (gotoInstr off)
    length_lt := (by decide : 4 < 2 ^ 8)
    length_ext := nofun }

theorem gotoRecord_bytes (off : Nat) :
    (gotoRecord off).bytes = [4, 0, 0, 0] ++ (gotoRecord off).data := by
  simp [HexRecord.bytes, gotoRecord, byteRecord]

theorem gotoRecord_holds (off : Nat) :
    HoldsGoto (fun k => (gotoRecord off).data.getD k 0) 0 off := by
  refine HoldsGoto.iff_zero.mpr fun k hk => ?_
  simp [gotoRecord, hk]

theorem isGotoRecord (heven : off % 2 = 0) (hoff : off < 2 ^ 21) :
    IsGotoRecord off (gotoRecord off) :=
  ⟨rfl, rfl, rfl, (gotoRecord_holds off).target heven hoff⟩

/-- The masks of the tool are remainders. -/
theorem patchInstr_mod (off : Nat) : patchInstr off = [(off >>> 1) % 256, gotoInstr1,
    (off >>> 1 >>> 8) % 256, (off >>> 1 >>> 16) % 16 ||| gotoInstr2] := by
  have hlow : ∀ m, m &&& 0xff = m % 256 := fun m => Nat.and_two_pow_sub_one_eq_mod m 8
  have hnibble : ∀ m, m &&& 0x0f = m % 16 := fun m => Nat.and_two_pow_sub_one_eq_mod m 4
  simp only [patchInstr, hlow, hnibble]

/-- The list the tool formats is the data of the record. -/
theorem patchInstr_eq (off : Nat) : patchInstr off = (gotoRecord off).data.map UInt8.toNat := by
  have hdata : (gotoRecord off).data.map UInt8.toNat = [(gotoInstr off 0).toNat,
      (gotoInstr off 1).toNat, (gotoInstr off 2).toNat, (gotoInstr off 3).toNat] := rfl
  rw [hdata, patchInstr_mod]
  simp only [gotoInstr, UInt8.toNat_or, UInt8.toNat_ofNat']
  rw [Nat.mod_eq_of_lt (show (off >>> 1 >>> 16) % 16 < 2 ^ 8 by omega)]
  rfl

theorem toUpper_digitChar : ∀ n < 16, n.digitChar.toUpper = hexDigit n := by decide

theorem fmt02X_byte (h : n < 256) : fmt02X n = [hexDigit (n / 16), hexDigit (n % 16)] := by
  have hlow := toUpper_digitChar (n % 16) (Nat.mod_lt n (by decide))
  rw [fmt02X]
  rcases Nat.lt_or_ge n 16 with hn | hn
  · rw [Nat.toDigits_of_lt_base hn, Nat.div_eq_of_lt hn, ← hlow, Nat.mod_eq_of_lt hn]
    rfl
  · have hdiv : n / 16 < 16 := by omega
    rw [Nat.toDigits_of_base_le (by decide) hn, Nat.toDigits_of_lt_base hdiv, ← hlow,
      ← toUpper_digitChar _ hdiv]
    rfl

theorem fmt02X_bytes (line : Line) (bytes : List UInt8) :
    (bytes.map UInt8.toNat).foldl (fun line i => line ++ fmt02X i) line =
      line ++ hexText bytes := by
  induction bytes generalizing line with
  | nil => exact (List.append_nil line).symm
  | cons b bytes ih =>
    rw [List.map_cons, List.foldl_cons, ih, fmt02X_byte b.toNat_lt, List.append_assoc]
    rfl

theorem gotoLine_eq (off : Nat) : gotoLine off =
    ':' :: hexText (gotoRecord off).bytes ++ fmt02X (patchCksum (patchInstr off)) ++ ['\n'] := by
  have hhead : hexText [4, 0, 0, 0] = ['0', '4', '0', '0', '0', '0', '0', '0'] := by decide
  rw [gotoLine, gotoRecord_bytes, hexText_append, hhead]
  simp only [patchInstr_eq off, fmt02X_bytes]
  rfl

/-! ## The checksum -/

/-- The sum of the bytes of the word address. -/
def operandSum (off : Nat) : Nat := off / 2 % 256 + off / 2 / 256 % 256 + off / 2 / 65536

/-- The bytes before the checksum; the tool begins their sum at the count. -/
theorem sum_bytes (off : Nat) : ((gotoRecord off).bytes.map UInt8.toNat).sum =
    (patchInstr off).foldl (fun cksum i => cksum + i) 4 := by
  rw [gotoRecord_bytes, List.map_append, ← patchInstr_eq, List.sum_append, patchInstr]
  simp only [List.foldl_cons, List.foldl_nil, List.sum_cons, List.sum_nil, List.map_cons,
    List.map_nil, UInt8.reduceToNat]
  omega

theorem sum_patchInstr (hoff : off < 2 ^ 21) :
    (patchInstr off).foldl (fun cksum i => cksum + i) 4 = operandSum off + 483 := by
  have hor : ∀ x < 16, x ||| gotoInstr2 = x + 240 := by decide
  rw [patchInstr_mod, hor _ (Nat.mod_lt _ (by decide))]
  simp only [Nat.shiftRight_eq_div_pow, List.foldl_cons, List.foldl_nil, operandSum, gotoInstr1]
  omega

/-- A checksum of two digits is the one that makes the bytes add up to 0. -/
theorem gotoLine_toLine (h : patchCksum (patchInstr off) < 256) :
    gotoLine off = (gotoRecord off).toLine := by
  have hsum : (0 - (gotoRecord off).bytes.sum).toNat = patchCksum (patchInstr off) := by
    rw [UInt8.toNat_sub, ← sum_toNat, sum_bytes]
    unfold patchCksum at h ⊢
    simp only [UInt8.reduceToNat] at h ⊢
    omega
  have hcksum : fmt02X (patchCksum (patchInstr off)) =
      hexText [0 - (gotoRecord off).bytes.sum] := by
    rw [← hsum, fmt02X_byte (UInt8.toNat_lt _)]
    rfl
  rw [gotoLine_eq, hcksum, HexRecord.toLine, hexText_append]
  rfl

theorem length_gotoLine (h : patchCksum (patchInstr off) = 256) : (gotoLine off).length = 21 := by
  rw [gotoLine_eq, h]
  simp only [List.length_append, List.length_cons, length_hexText]
  rfl

/-- The checksum has two digits but for two sums. -/
theorem patchCksum_lt (hoff : off < 2 ^ 21) :
    patchCksum (patchInstr off) < 256 ↔ operandSum off ≠ 29 ∧ operandSum off ≠ 285 := by
  have hle : operandSum off ≤ 525 := by
    unfold operandSum
    omega
  rw [patchCksum, sum_patchInstr hoff]
  omega

/-- **The patched file** begins with a checked record of the `GOTO` exactly if the bytes of the word
address sum to neither 29 nor 285. -/
theorem patch_record_iff (off : Nat) (hexIn : List Line) (heven : off % 2 = 0)
    (hoff : off < 2 ^ 21) :
    (∃ line rest r, btldPatch off hexIn = line :: rest ∧ CheckedLine line r ∧ IsGotoRecord off r) ↔
      operandSum off ≠ 29 ∧ operandSum off ≠ 285 := by
  rw [← patchCksum_lt hoff]
  constructor
  · rintro ⟨line, rest, r, hlines, hline, hr⟩
    obtain ⟨rfl, -⟩ := List.cons.inj hlines
    apply Nat.lt_of_le_of_ne (Nat.sub_le 256 _)
    intro hbig
    have hlen := hline.length
    rw [length_gotoLine hbig, hr.count] at hlen
    omega
  · intro hcksum
    refine ⟨gotoLine off, hexIn, gotoRecord off, rfl, ?_, isGotoRecord heven hoff⟩
    rw [gotoLine_toLine hcksum]
    exact (gotoRecord off).toLine_checked

/-- The offset of the repository's build. -/
theorem build_record_patched : ∃ line rest r, btldPatch 0x1000 [] = line :: rest ∧
    CheckedLine line r ∧ IsGotoRecord 0x1000 r :=
  (patch_record_iff 0x1000 [] (by decide) (by decide)).mpr (by decide)

/-- A multiple of 64 with a checksum of three digits. -/
theorem three_digit_checksum : ¬ ∃ line rest r, btldPatch 0x3A00 [] = line :: rest ∧
    CheckedLine line r ∧ IsGotoRecord 0x3A00 r := by
  rintro ⟨line, rest, r, hlines, hline, hr⟩
  obtain ⟨rfl, -⟩ := List.cons.inj hlines
  have hlen := hline.length
  rw [length_gotoLine (by decide), hr.count] at hlen
  omega

end Pic18Boot
