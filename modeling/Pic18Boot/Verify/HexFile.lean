import Mathlib.Data.List.Forall2
import Mathlib.Data.List.Induction
import Pic18Boot.Model.HexFile

/-! # The tool on a well-formed HEX line

The fields the tool picks out of a line by position are the fields of the record it spells
(`hostLine_record`), and the bytes it hashes for a record extend the image (`hostRecord_image`). -/

namespace Pic18Boot

variable {c : Char} {x n : Nat} {text : List Char} {bytes : List UInt8} {line : Line}
  {r : HexRecord} {v : HostVars}

theorem ascii2dec_of_hexValue (h : hexValue c = some x) : ascii2dec c = x ∧ x < 16 := by
  unfold hexValue at h
  unfold ascii2dec
  simp only [Char.reduceToNat] at h
  split at h
  · next hc =>
    cases h
    rw [if_pos hc]
    exact ⟨rfl, by omega⟩
  split at h
  · next hc hc' =>
    cases h
    rw [if_neg hc, if_pos hc']
    exact ⟨by omega, by omega⟩
  split at h
  · next hc hc' hc'' =>
    cases h
    rw [if_neg hc, if_neg hc', if_pos hc'']
    exact ⟨by omega, by omega⟩
  · cases h

/-- Byte `i` is spelled at `2 * i`. -/
theorem Spells.digits (h : Spells text bytes) {i : Nat} {b : UInt8} (hb : bytes[i]? = some b) :
    ∃ hi lo, text[2 * i]? = some hi ∧ text[2 * i + 1]? = some lo ∧
      ascii2dec hi * 16 + ascii2dec lo = b.toNat ∧ ascii2dec lo < 2 ^ 4 := by
  induction h generalizing i with
  | nil => cases hb
  | @cons hi lo text b' bytes x y hx hy hval _ ih =>
    cases i with
    | zero =>
      cases hb
      obtain ⟨rfl, -⟩ := ascii2dec_of_hexValue hx
      obtain ⟨rfl, hlt⟩ := ascii2dec_of_hexValue hy
      exact ⟨hi, lo, rfl, rfl, hval, hlt⟩
    | succ i => exact ih hb

/-- What the tool does with a record. -/
def hostRecord (v : HostVars) (r : HexRecord) : HostVars × LineAction :=
  if r.type = 0 then
    if v.ignoreNextDataRec then (v, .skip)
    else
      let addr := v.addrUpper * 2 ^ 16 + r.offset
      let gap := v.nextExpectAddr < addr
      ({ v with
          fwSize := v.fwSize + r.data.length + if gap then addr - v.nextExpectAddr else 0
          fwHash :=
            (if gap then hashFill (addr - v.nextExpectAddr) v.fwHash else v.fwHash) ++ r.data
          nextExpectAddr := addr + r.data.length },
        .flash (encodeData r.data r.data.length addr))
  else if r.type = 1 then (v, .finish (encodeSize v.fwSize))
  else if r.type = 4 then
    let low := (r.data.getD 1 0).toNat
    if low > 0x10 then ({ v with ignoreNextDataRec := true }, .skip)
    else ({ v with ignoreNextDataRec := false, addrUpper := low }, .skip)
  else (v, .skip)

theorem lineData_spelled (h : Spells text r.bytes) :
    lineData (':' :: text) r.data.length = some r.data := by
  refine List.mapM_eq_some_iff.mpr (List.ext_getElem (by simp) fun i _ hi => ?_)
  have hi : i < r.data.length := by simpa using hi
  have hbyte : r.bytes[i + 4]? = some r.data[i] := by simp [HexRecord.bytes, hi]
  obtain ⟨hd, ld, hhi, hlo, hval, -⟩ := h.digits hbyte
  have hhi' : (':' :: text)[9 + i * 2]? = some hd := by
    rw [show 9 + i * 2 = 2 * (i + 4) + 1 by omega]
    exact hhi
  have hlo' : (':' :: text)[10 + i * 2]? = some ld := by
    rw [show 10 + i * 2 = 2 * (i + 4) + 1 + 1 by omega]
    exact hlo
  have hsum := congrArg UInt8.ofNat hval
  rw [UInt8.ofNat_toNat] at hsum
  simp only [List.getElem_map, List.getElem_range, hhi', hlo', Option.bind_eq_bind,
    Option.bind_some, hsum]
  rfl

/-- Count, address and type of the record, where the tool reads them. -/
theorem header_spelled (h : Spells text r.bytes) : ∃ c1 c2 a1 a2 b1 b2 t2,
    (':' :: text)[1]? = some c1 ∧ (':' :: text)[2]? = some c2 ∧ (':' :: text)[3]? = some a1 ∧
    (':' :: text)[4]? = some a2 ∧ (':' :: text)[5]? = some b1 ∧ (':' :: text)[6]? = some b2 ∧
    (':' :: text)[8]? = some t2 ∧ ascii2dec c1 * 16 + ascii2dec c2 = r.data.length ∧
    (∀ upper, upper <<< 16 ||| (ascii2dec a1 <<< 4 ||| ascii2dec a2) <<< 8 |||
      (ascii2dec b1 <<< 4 ||| ascii2dec b2) = upper * 2 ^ 16 + r.offset) ∧
    ascii2dec t2 = r.type := by
  have hcount : r.bytes[0]? = some (UInt8.ofNat r.data.length) := rfl
  have haddr : r.bytes[1]? = some (UInt8.ofNat (r.offset / 256)) := rfl
  have haddr' : r.bytes[2]? = some (UInt8.ofNat r.offset) := rfl
  have htype : r.bytes[3]? = some (UInt8.ofNat r.type) := rfl
  obtain ⟨c1, c2, hc1, hc2, hcount, -⟩ := h.digits hcount
  obtain ⟨a1, a2, ha1, ha2, haddr, ha⟩ := h.digits haddr
  obtain ⟨b1, b2, hb1, hb2, haddr', hb⟩ := h.digits haddr'
  obtain ⟨t1, t2, -, ht2, htype, -⟩ := h.digits htype
  have hlen := r.length_lt
  have hoff := r.offset_lt
  have hle := r.type_le
  simp only [UInt8.toNat_ofNat'] at hcount haddr haddr' htype
  refine ⟨c1, c2, a1, a2, b1, b2, t2, hc1, hc2, ha1, ha2, hb1, hb2, ht2, by omega, ?_, by omega⟩
  intro upper
  rw [Nat.shiftLeft_or ha, Nat.shiftLeft_or hb, Nat.or_bytes (by omega) (by omega)]
  omega

/-- The low byte of the upper address. -/
theorem upper_spelled (h : Spells text r.bytes) (h4 : r.type = 4) : ∃ u1 u2,
    (':' :: text)[11]? = some u1 ∧ (':' :: text)[12]? = some u2 ∧
      ascii2dec u1 <<< 4 ||| ascii2dec u2 = (r.data.getD 1 0).toNat := by
  have hbyte : r.bytes[5]? = some (r.data.getD 1 0) := by
    have hlen := r.length_ext h4
    simp [HexRecord.bytes, hlen]
  obtain ⟨u1, u2, hu1, hu2, hval, hu⟩ := h.digits hbyte
  refine ⟨u1, u2, hu1, hu2, ?_⟩
  rw [Nat.shiftLeft_or hu]
  exact hval

/-- **A line that spells a record makes the tool do what the record says.** -/
theorem hostLine_record (h : HexLine line r) : hostLine v line = some (hostRecord v r) := by
  obtain ⟨hspell⟩ := h
  rename_i text
  obtain ⟨c1, c2, a1, a2, b1, b2, t2, h1, h2, h3, h4, h5, h6, h8, hcount, haddr, htype⟩ :=
    header_spelled hspell
  have h0 : (':' :: text)[0]? = some ':' := rfl
  unfold hostLine hostRecord
  simp only [h0, h1, h2, h3, h4, h5, h6, h8, htype, hcount, haddr, Option.bind_eq_bind,
    Option.bind_some, ne_eq, not_true_eq_false, if_false]
  split
  · split
    · rfl
    · simp only [hostDataRec, lineData_spelled hspell, Option.bind_eq_bind, Option.bind_some]
      rfl
  split
  · rfl
  split
  · next hext =>
    obtain ⟨u1, u2, h11, h12, hlow⟩ := upper_spelled hspell hext
    rw [h11, h12]
    simp only [Option.bind_some, hlow]
    split <;> rfl
  · rfl

/-! ## Files of records -/

def hexDigit (n : Nat) : Char := if n < 10 then Char.ofNat (48 + n) else Char.ofNat (55 + n)

theorem hexValue_hexDigit : ∀ n < 16, hexValue (hexDigit n) = some n := by decide

/-- The digits of the bytes. -/
def hexText (bytes : List UInt8) : List Char :=
  bytes.flatMap fun b => [hexDigit (b.toNat / 16), hexDigit (b.toNat % 16)]

theorem hexText_append (bytes bytes' : List UInt8) :
    hexText (bytes ++ bytes') = hexText bytes ++ hexText bytes' := List.flatMap_append

theorem spells_hexText : Spells (hexText bytes ++ text) bytes := by
  induction bytes with
  | nil => exact .nil
  | cons b bytes ih =>
    have hb := b.toNat_lt
    exact .cons (hexValue_hexDigit _ (by omega)) (hexValue_hexDigit _ (by omega)) (by omega) ih

/-- A record as a line, with the checksum that makes its bytes add up to 0. -/
def HexRecord.toLine (r : HexRecord) : Line :=
  ':' :: hexText (r.bytes ++ [0 - r.bytes.sum]) ++ ['\n']

theorem HexRecord.toLine_spells : HexLine r.toLine r := by
  rw [HexRecord.toLine, hexText_append, List.cons_append, List.append_assoc]
  exact .intro spells_hexText

theorem toLines_spell (rs : List HexRecord) :
    List.Forall₂ HexLine (rs.map HexRecord.toLine) rs :=
  List.forall₂_map_left_iff.mpr (List.forall₂_same.mpr fun _ _ => HexRecord.toLine_spells)

/-- Every list of records with an end-of-file record is a file. -/
theorem hexFile_records (rs : List HexRecord) (heof : ∃ r ∈ rs, r.type = 1) :
    HexFile (rs.map HexRecord.toLine) (flashable 0 false rs) := .intro (toLines_spell rs) heof

/-- One byte at offset 0. -/
def byteRecord : HexRecord where
  offset := 0
  type := 0
  data := [0x5A]
  offset_lt := by decide
  type_le := by decide
  length_lt := by decide
  length_ext := nofun

/-- An end-of-file record. -/
def eofRecord : HexRecord where
  offset := 0
  type := 1
  data := []
  offset_lt := by decide
  type_le := by decide
  length_lt := by decide
  length_ext := nofun

/-! ## The image the tool hashes -/

variable {img : List UInt8} {rec : Nat × List UInt8} {recs : List (Nat × List UInt8)}

theorem length_extendImage (h : img.length ≤ rec.1) :
    (extendImage img rec).length = recEnd rec := by
  simp only [extendImage, List.length_append, List.length_replicate, recEnd]
  omega

theorem image_concat : image (recs ++ [rec]) = extendImage (image recs) rec := by
  simp [image]

theorem le_length_image : img.length ≤ (recs.foldl extendImage img).length := by
  induction recs generalizing img with
  | nil => exact Nat.le_refl _
  | cons r recs ih =>
    refine Nat.le_trans ?_ ih
    simp only [extendImage, List.length_append]
    omega

theorem length_image_le (hasc : recs.Pairwise fun r r' => recEnd r ≤ r'.1)
    (h : ∀ r ∈ recs, recEnd r ≤ n) : (image recs).length ≤ n := by
  induction recs using List.reverseRecOn generalizing n with
  | nil => exact Nat.zero_le n
  | append_singleton recs r ih =>
    obtain ⟨hasc', -, hlast⟩ := List.pairwise_append.mp hasc
    have hle : (image recs).length ≤ r.1 := ih hasc' fun r' hr' => hlast r' hr' r (by simp)
    rw [image_concat, length_extendImage hle]
    exact h r (by simp)

theorem hashFill_eq : hashFill n img = img ++ List.replicate n 0xFF := by
  have hfold : ∀ m, Nat.fold m (fun _ _ l => l ++ List.replicate 64 (0xFF : UInt8)) img =
      img ++ List.replicate (64 * m) 0xFF := by
    intro m
    induction m with
    | zero => simp
    | succ m ih => rw [Nat.fold_succ, ih, List.append_assoc, List.replicate_append_replicate]; rfl
  simp only [hashFill, hfold, List.take_replicate]
  split
  · rw [List.append_assoc, List.replicate_append_replicate]
    congr 2
    omega
  · next h =>
    congr 2
    omega

/-- The tool has hashed the image `img`. -/
structure HostImage (v : HostVars) (img : List UInt8) : Prop where
  hash : v.fwHash = img
  size : v.fwSize = img.length
  next : v.nextExpectAddr = img.length

theorem hostRecord_data (hdata : r.type = 0) (hig : v.ignoreNextDataRec = false) :
    (hostRecord v r).1 = { v with
      fwSize := v.fwSize + r.data.length +
        if v.nextExpectAddr < v.addrUpper * 2 ^ 16 + r.offset then
          v.addrUpper * 2 ^ 16 + r.offset - v.nextExpectAddr else 0
      fwHash := (if v.nextExpectAddr < v.addrUpper * 2 ^ 16 + r.offset then
          hashFill (v.addrUpper * 2 ^ 16 + r.offset - v.nextExpectAddr) v.fwHash
        else v.fwHash) ++ r.data
      nextExpectAddr := v.addrUpper * 2 ^ 16 + r.offset + r.data.length } ∧
    (hostRecord v r).2 =
      .flash (encodeData r.data r.data.length (v.addrUpper * 2 ^ 16 + r.offset)) := by
  rw [hostRecord, if_pos hdata, if_neg (by simp [hig])]
  exact ⟨rfl, rfl⟩

/-- A data record extends the image. -/
theorem hostRecord_image (H : HostImage v img) (hdata : r.type = 0)
    (hig : v.ignoreNextDataRec = false) (hle : img.length ≤ v.addrUpper * 2 ^ 16 + r.offset) :
    HostImage (hostRecord v r).1 (extendImage img (v.addrUpper * 2 ^ 16 + r.offset, r.data)) := by
  have hlen : (extendImage img (v.addrUpper * 2 ^ 16 + r.offset, r.data)).length =
      v.addrUpper * 2 ^ 16 + r.offset + r.data.length := length_extendImage hle
  obtain ⟨hhash, hsize, hnext⟩ := H
  rw [(hostRecord_data hdata hig).1]
  by_cases hgap : v.nextExpectAddr < v.addrUpper * 2 ^ 16 + r.offset
  · simp only [if_pos hgap, hhash, hsize, hashFill_eq]
    exact ⟨by rw [hnext]; rfl, by dsimp only; omega, hlen.symm⟩
  · simp only [if_neg hgap, hhash, hsize]
    refine ⟨?_, by dsimp only; omega, hlen.symm⟩
    rw [extendImage, show v.addrUpper * 2 ^ 16 + r.offset - img.length = 0 by omega,
      List.replicate_zero, List.append_nil]

/-- Everything a record can make the tool do, with what it leaves to flash. -/
inductive RecordCase (v : HostVars) (r : HexRecord) : HostVars × LineAction → Prop
  | skip {v'} : r.type ≠ 1 → (∀ img, HostImage v img → HostImage v' img) →
    (∀ rs, flashable v.addrUpper v.ignoreNextDataRec (r :: rs) =
      flashable v'.addrUpper v'.ignoreNextDataRec rs) → RecordCase v r (v', .skip)
  | flash {v' rec} : r.type ≠ 1 →
    (∀ img, img.length ≤ rec.1 → HostImage v img → HostImage v' (extendImage img rec)) →
    (∀ rs, flashable v.addrUpper v.ignoreNextDataRec (r :: rs) =
      rec :: flashable v'.addrUpper v'.ignoreNextDataRec rs) →
    RecordCase v r (v', .flash (encodeData rec.2 rec.2.length rec.1))
  | finish : (∀ rs, flashable v.addrUpper v.ignoreNextDataRec (r :: rs) = []) →
    RecordCase v r (v, .finish (encodeSize v.fwSize))

theorem hostRecord_cases (v : HostVars) (r : HexRecord) : RecordCase v r (hostRecord v r) := by
  by_cases h0 : r.type = 0
  · cases hig : v.ignoreNextDataRec with
    | true =>
      rw [hostRecord, if_pos h0, if_pos hig]
      refine .skip (by omega) (fun _ => id) fun rs => ?_
      rw [flashable, if_pos h0, if_pos hig]
    | false =>
      obtain ⟨hvars, haction⟩ := hostRecord_data h0 hig
      rw [← Prod.eta (hostRecord v r), haction]
      refine @RecordCase.flash v r _ (v.addrUpper * 2 ^ 16 + r.offset, r.data) (by omega)
        (fun img hle H => hostRecord_image H h0 hig hle) fun rs => ?_
      rw [flashable, if_pos h0, if_neg (by simp [hig]), hvars]
  by_cases h1 : r.type = 1
  · rw [hostRecord, if_neg h0, if_pos h1]
    refine .finish fun rs => ?_
    rw [flashable, if_neg h0, if_pos h1]
  by_cases h4 : r.type = 4
  · rw [hostRecord, if_neg h0, if_neg h1, if_pos h4]
    dsimp only
    split
    · next hlow =>
      refine .skip h1 (fun _ H => ⟨H.hash, H.size, H.next⟩) fun rs => ?_
      rw [flashable, if_neg h0, if_neg h1, if_pos h4]
      exact if_pos hlow
    · next hlow =>
      refine .skip h1 (fun _ H => ⟨H.hash, H.size, H.next⟩) fun rs => ?_
      rw [flashable, if_neg h0, if_neg h1, if_pos h4]
      exact if_neg hlow
  · rw [hostRecord, if_neg h0, if_neg h1, if_neg h4]
    refine .skip h1 (fun _ => id) fun rs => ?_
    rw [flashable, if_neg h0, if_neg h1, if_neg h4]

end Pic18Boot
